import Saurus.Gen.Compile
import Saurus.Gen.Heights
import Saurus.Vm.Entry
import Saurus.Vm.Refine

/-!
# Generated code keeps the stack in order

A block that the generator emitted for an expression is executed in some
frame of the interpreter. `Ordered` is what holds as long as control stays
there, calls included: the values the block has on the stack are on top of
what was there when it began, and every function called meanwhile is
somewhere in a body of which the same is true.
-/

namespace Saurus

open Basis Basis.StackCode Basis.Codec

/-- The instructions of a function from `lo` to `hi` are those of `code`. -/
def Loaded (code : List Instr) (p : Proto) (lo hi : Nat) : Prop :=
  ∀ pc i, lo ≤ pc → pc < hi → code[pc]? = some i → ∃ inst, p.inst[pc]? = some inst ∧ SameInst i inst

theorem Loaded.fetch {code : List Instr} {act : Act} {lo hi : Nat} {i : Instr}
    (h : Loaded code act.func.prot lo hi) (hlo : lo ≤ act.pc) (hhi : act.pc < hi)
    (hi : code[act.pc]? = some i) : act.fetch = .ok (i.op, i.a, i.b) := by
  obtain ⟨inst, hinst, hop, ha, hb⟩ := h act.pc i hlo hhi hi
  rw [Act.fetch, hinst, Outcome.ofOption_some, Outcome.ok_bind, hop, Outcome.ofOption_some,
    Outcome.ok_bind, ha, hb]
  rfl

/-! ## What one instruction does -/

/-- A local instruction puts as many values as it says and goes where it says. -/
theorem localOp_ok {h : Host} {view : View} {w w' : World} {func : FunctionObj} {i : Instr}
    {pc pc' : Nat} {args vs : List Value} (hlocal : i.op.IsLocal)
    (hop : localOp h view w func pc i.op i.a i.b args = .ok (w', vs, pc')) :
    vs.length = instrShape.puts i ∧ pc' ∈ instrShape.next pc i := by
  obtain ⟨op, a, b⟩ := i
  have hput : ∀ {v : Outcome Value}, (do pure (w, [← v], pc + 1)) = Outcome.ok (w', vs, pc') →
      vs.length = 1 ∧ pc' ∈ [pc + 1] := by
    intro v hv
    obtain ⟨x, -, hv⟩ := Outcome.bind_eq_ok.mp hv
    cases hv
    exact ⟨rfl, List.mem_singleton_self _⟩
  cases op with
  | call | tcall | «return» => simp [Op.IsLocal] at hlocal
  | push | copy | load | getglobal => exact hput hop
  | pop =>
      cases hop
      exact ⟨rfl, List.mem_singleton_self _⟩
  | jmp =>
      cases hop
      exact ⟨rfl, List.mem_singleton_self _⟩
  | lambda =>
      obtain ⟨prot, -, hop⟩ := Outcome.bind_eq_ok.mp hop
      obtain ⟨r, -, hop⟩ := Outcome.bind_eq_ok.mp hop
      cases hop
      exact ⟨rfl, List.mem_singleton_self _⟩
  | test =>
      rcases args with _ | ⟨x, _ | ⟨y, args⟩⟩
      · cases hop
      · cases hop
        refine ⟨rfl, ?_⟩
        change (if truthy x then a else pc + 1) ∈ [pc + 1, a]
        split <;> simp
      · cases hop
  | setglobal =>
      rcases args with _ | ⟨x, _ | ⟨y, args⟩⟩
      · cases hop
      · obtain ⟨w1, -, hop⟩ := Outcome.bind_eq_ok.mp hop
        cases hop
        exact ⟨rfl, List.mem_singleton_self _⟩
      · cases hop
  | unm | not =>
      rcases args with _ | ⟨x, _ | ⟨y, args⟩⟩
      · cases hop
      · exact hput hop
      · cases hop
  | add | sub | mul | div | mod | pow | eq | less | lequal | and | or =>
      rcases args with _ | ⟨y, _ | ⟨x, _ | ⟨z, args⟩⟩⟩
      · cases hop
      · cases hop
      · exact hput hop
      · cases hop

/-- An activation in a block. It has what it began on, `frame`, and on top of
it the values that the block has there, but for `owed` that a call is yet to
bring. -/
structure InBlock (code : List Instr) (H : Nat → Nat) (lo hi : Nat) (frame : List Value)
    (owed : Nat) (act : Act) : Prop where
  loaded : Loaded code act.func.prot lo hi
  steady : Steady instrShape code H lo hi
  range : lo ≤ act.pc ∧ act.pc ≤ hi
  slots : ∃ vs, act.slots = vs ++ frame ∧ vs.length + owed = H act.pc

/-- What a call with these callers comes to: a function is entered, or a value
given back at once. -/
def Called (c : Conf) (callers : List Act) : Prop :=
  (∃ w fn slots, c = .run w ⟨fn, 0, slots⟩ callers) ∨ ∃ w v, c = giveBack w v callers

theorem enterCall_called {h : Host} {w : World} {f : Value} {args : List Value}
    {callers : List Act} {c : Conf} (hc : enterCall h w f args callers = .ok c) :
    Called c callers := by
  unfold enterCall at hc
  split at hc
  · obtain ⟨fn, -, hc⟩ := Outcome.bind_eq_ok.mp hc
    obtain ⟨⟨w', args'⟩, -, hc⟩ := Outcome.bind_eq_ok.mp hc
    cases hc
    exact Or.inl ⟨w', fn, _, rfl⟩
  · obtain ⟨r, -, hc⟩ := Outcome.bind_eq_ok.mp hc
    cases hc
    exact Or.inr ⟨_, _, rfl⟩
  · obtain ⟨v, -, hc⟩ := Outcome.bind_eq_ok.mp hc
    cases hc
    exact Or.inr ⟨_, _, rfl⟩
  · obtain ⟨v, -, hc⟩ := Outcome.bind_eq_ok.mp hc
    cases hc
    exact Or.inr ⟨_, _, rfl⟩
  · obtain ⟨name, -, hc⟩ := Outcome.bind_eq_ok.mp hc
    cases hc

namespace InBlock

variable {code : List Instr} {H : Nat → Nat} {lo hi : Nat} {frame : List Value} {act : Act}

theorem giveBack (hb : InBlock code H lo hi frame 1 act) (v : Value) :
    InBlock code H lo hi frame 0 { act with slots := v :: act.slots } := by
  obtain ⟨vs, hslots, hlen⟩ := hb.slots
  refine ⟨hb.loaded, hb.steady, hb.range, v :: vs, ?_, hlen⟩
  rw [hslots, List.cons_append]

/-- The instruction there, which has the values it takes. -/
theorem fetch (hb : InBlock code H lo hi frame 0 act) (hpc : act.pc < hi) :
    ∃ i, act.fetch = .ok (i.op, i.a, i.b) ∧ i.op ≠ .return
      ∧ (∃ vs, act.slots = vs ++ frame ∧ vs.length = H act.pc ∧ instrShape.takes i ≤ vs.length)
      ∧ ∀ t ∈ instrShape.next act.pc i, lo ≤ t ∧ t ≤ hi
        ∧ H t = H act.pc - instrShape.takes i + instrShape.puts i := by
  obtain ⟨i, hi, hstays, htakes, hnext⟩ := hb.steady act.pc hb.range.1 hpc
  obtain ⟨vs, hslots, hlen⟩ := hb.slots
  rw [Nat.add_zero] at hlen
  exact ⟨i, hb.loaded.fetch hb.range.1 hpc hi, hstays, ⟨vs, hslots, hlen, hlen ▸ htakes⟩, hnext⟩

/-- **One instruction in a block**: it has what it takes, and afterwards
control is still there, or waits there for a call, or was handed over. -/
theorem step (hb : InBlock code H lo hi frame 0 act) (hpc : act.pc < hi) :
    act.Fits ∧ ∀ {h view w rest c}, stepAct h view w act rest = .ok c →
      (∃ w' act', c = .run w' act' rest ∧ act'.func = act.func ∧ InBlock code H lo hi frame 0 act')
      ∨ (∃ wait, wait.func = act.func ∧ InBlock code H lo hi frame 1 wait
        ∧ Called c (wait :: rest))
      ∨ ((∃ a b, act.fetch = .ok (.tcall, a, b)) ∧ Called c rest) := by
  obtain ⟨i, hfetch, hret, ⟨vs, hslots, hlen, htakes⟩, hnext⟩ := hb.fetch hpc
  constructor
  · intro op a b hop
    cases hfetch.symm.trans hop
    rw [hslots, List.length_append]
    exact Nat.le_trans htakes (Nat.le_add_right ..)
  intro h view w rest c hstep
  rw [stepAct, hfetch, Outcome.ok_bind] at hstep
  dsimp only at hstep
  have hdrop : act.slots.drop (instrShape.takes i) = vs.drop (instrShape.takes i) ++ frame := by
    rw [hslots, List.drop_append_of_le_length htakes]
  obtain ⟨op, a, b⟩ := i
  by_cases hcall : op = .call
  · subst hcall
    refine Or.inr (Or.inl ⟨act.waiting a, rfl, ?_, ?_⟩)
    · obtain ⟨hlo, hhi, hheight⟩ := hnext _ (List.mem_singleton_self _)
      refine ⟨hb.loaded, hb.steady, ⟨hlo, hhi⟩, vs.drop (a + 1), hdrop, ?_⟩
      rw [List.length_drop, hlen]
      exact hheight.symm
    · obtain ⟨f, args, hstep⟩ := execAct_call hstep
      exact enterCall_called hstep
  by_cases htcall : op = .tcall
  · subst htcall
    refine Or.inr (Or.inr ⟨⟨a, b, hfetch⟩, ?_⟩)
    obtain ⟨f, args, hstep⟩ := execAct_tcall hstep
    exact enterCall_called hstep
  · have hlocal : op.IsLocal := ⟨hcall, htcall, hret⟩
    rw [execAct_local h hlocal] at hstep
    obtain ⟨⟨w', vs', pc'⟩, hop, hstep⟩ := Outcome.bind_eq_ok.mp hstep
    cases hstep
    obtain ⟨hputs, hmem⟩ := localOp_ok (i := ⟨op, a, b⟩) hlocal hop
    obtain ⟨hlo, hhi, hheight⟩ := hnext pc' hmem
    refine Or.inl ⟨w', _, rfl, rfl, hb.loaded, hb.steady, ⟨hlo, hhi⟩,
      vs' ++ vs.drop (instrShape.takes ⟨op, a, b⟩), ?_, ?_⟩
    · rw [List.append_assoc, ← hdrop]
      rfl
    · rw [List.length_append, List.length_drop, hlen, hputs, hheight, Nat.add_zero, Nat.add_comm]

end InBlock

/-! ## Bodies -/

/-- A function whose code is a block for one value and a `RETURN`. -/
def IsBody (p : Proto) : Prop :=
  ∃ code n, code[n]? = some { op := .return } ∧ Loaded code p 0 (n + 1) ∧ CodeBlock code 0 n 1

/-- An activation somewhere in such a function. -/
def InBody (owed : Nat) (act : Act) : Prop :=
  ∃ code n H frame, code[n]? = some { op := .return } ∧ Loaded code act.func.prot 0 (n + 1)
    ∧ H n = 1 ∧ InBlock code H 0 n frame owed act

theorem IsBody.enter {fn : FunctionObj} (h : IsBody fn.prot) (slots : List Value) :
    InBody 0 ⟨fn, 0, slots⟩ := by
  obtain ⟨code, n, hret, hloaded, -, H, h0, hn, hsteady⟩ := h
  refine ⟨code, n, H, slots, hret, hloaded, hn, ?_, hsteady, ⟨Nat.le_refl 0, Nat.zero_le n⟩, [],
    rfl,
    h0.symm⟩
  exact fun pc i hlo hhi => hloaded pc i hlo (Nat.lt_succ_of_lt hhi)

theorem InBody.giveBack {act : Act} (h : InBody 1 act) (v : Value) :
    InBody 0 { act with slots := v :: act.slots } := by
  obtain ⟨code, n, H, frame, hret, hloaded, hn, hb⟩ := h
  exact ⟨code, n, H, frame, hret, hloaded, hn, hb.giveBack v⟩

/-- One instruction of a body: like one of a block, or the `RETURN`. -/
theorem InBody.step {act : Act} (h : InBody 0 act) :
    act.Fits ∧ (∃ inst, act.fetch = .ok inst)
    ∧ ∀ {h view w rest c}, stepAct h view w act rest = .ok c →
      (∃ w' act', c = .run w' act' rest ∧ InBody 0 act')
      ∨ (∃ wait, InBody 1 wait ∧ Called c (wait :: rest)) ∨ Called c rest := by
  obtain ⟨code, n, H, frame, hret, hloaded, hn, hb⟩ := h
  rcases Nat.lt_or_eq_of_le hb.range.2 with hlt | heq
  · obtain ⟨hfits, hstep⟩ := hb.step hlt
    obtain ⟨i, hfetch, -⟩ := hb.fetch hlt
    refine ⟨hfits, ⟨_, hfetch⟩, fun hc => ?_⟩
    rcases hstep hc with ⟨w', act', rfl, hfunc, hb'⟩ | ⟨wait, hfunc, hb', hcalled⟩ | ⟨-, hcalled⟩
    · exact Or.inl ⟨w', act', rfl, code, n, H, frame, hret, hfunc ▸ hloaded, hn, hb'⟩
    · exact Or.inr (Or.inl ⟨wait, ⟨code, n, H, frame, hret, hfunc ▸ hloaded, hn, hb'⟩, hcalled⟩)
    · exact Or.inr (Or.inr hcalled)
  · have hfetch := hloaded.fetch (Nat.zero_le _) (by omega) (heq.symm ▸ hret)
    obtain ⟨vs, hslots, hlen⟩ := hb.slots
    rw [heq, hn] at hlen
    refine ⟨fun op a b hop => ?_, ⟨_, hfetch⟩, fun hc => ?_⟩
    · cases hfetch.symm.trans hop
      rw [hslots, List.length_append]
      exact Nat.le_add_right_of_le (Nat.le_of_eq hlen.symm)
    · rw [stepAct, hfetch, Outcome.ok_bind] at hc
      obtain ⟨v, rfl⟩ := execAct_return hc
      exact Or.inr (Or.inr (Or.inr ⟨_, v, rfl⟩))

/-! ## Runs in a block -/

/-- The block that is executed, and what its activation began on. -/
structure Site where
  func : FunctionObj
  code : List Instr
  lo : Nat
  hi : Nat
  H : Nat → Nat
  frame : List Value

/-- The activation of the block itself. -/
def Site.Holds (b : Site) (owed : Nat) (act : Act) : Prop :=
  act.func = b.func ∧ InBlock b.code b.H b.lo b.hi b.frame owed act

/-- The activation of the block is the outermost one, those above it are in
bodies, and each waits for the one above it. -/
def Ordered (b : Site) : Nat → List Act → Prop
  | _, [] => False
  | owed, [act] => b.Holds owed act
  | owed, act :: act' :: rest => InBody owed act ∧ Ordered b 1 (act' :: rest)

theorem Ordered.cons {b : Site} {owed : Nat} {act : Act} {rest : List Act} (h : InBody owed act)
    (hrest : Ordered b 1 rest) : Ordered b owed (act :: rest) := by
  cases rest with
  | nil => exact hrest.elim
  | cons act' rest => exact ⟨h, hrest⟩

/-- A value given back, or a body entered. -/
theorem ordered_called {b : Site} {callers : List Act} (h : Ordered b 1 callers) {c : Conf}
    (hc : Called c callers) : ∃ w act rest, c = .run w act rest
      ∧ ((rest ≠ [] → IsBody act.func.prot) → Ordered b 0 (act :: rest)) := by
  rcases hc with ⟨w, fn, slots, rfl⟩ | ⟨w, v, rfl⟩
  · refine ⟨w, _, callers, rfl, fun hbody => ?_⟩
    have hne : callers ≠ [] := by
      rintro rfl
      exact h
    exact .cons ((hbody hne).enter slots) h
  · match callers, h with
    | [act], ⟨hfunc, hb⟩ => exact ⟨w, _, [], rfl, fun _ => ⟨hfunc, hb.giveBack v⟩⟩
    | act :: act' :: rest, ⟨hb, hrest⟩ =>
        exact ⟨w, _, act' :: rest, rfl, fun _ => ⟨hb.giveBack v, hrest⟩⟩

theorem ordered_fetch {b : Site} {act : Act} {rest : List Act} (h : Ordered b 0 (act :: rest))
    (hin : rest = [] → act.pc < b.hi) : ∃ inst, act.fetch = .ok inst := by
  match rest, h with
  | [], ⟨_, hb⟩ =>
      obtain ⟨i, hfetch, -⟩ := hb.fetch (hin rfl)
      exact ⟨_, hfetch⟩
  | _ :: _, ⟨hb, _⟩ => exact hb.step.2.1

/-- **The step lemma.** As long as the block is not left, every instruction
has what it takes and leaves everything in order. -/
theorem ordered_step {b : Site} {act : Act} {rest : List Act} (h : Ordered b 0 (act :: rest))
    (hin : rest = [] → act.pc < b.hi ∧ ∀ a i, act.fetch ≠ .ok (.tcall, a, i)) :
    act.Fits ∧ ∀ {host view w c},
      stepAct host view w act rest = .ok c → ∃ w' act' rest', c = .run w' act' rest'
        ∧ ((rest' ≠ [] → IsBody act'.func.prot) → Ordered b 0 (act' :: rest')) := by
  match rest, h with
  | [], ⟨hfunc, hb⟩ =>
      obtain ⟨hlt, hno⟩ := hin rfl
      obtain ⟨hfits, hstep⟩ := hb.step hlt
      refine ⟨hfits, fun hc => ?_⟩
      rcases hstep hc with ⟨w', act', rfl, hfunc', hb'⟩ | ⟨wait, hfunc', hb', hcalled⟩
        | ⟨⟨a, i, htcall⟩, -⟩
      · exact ⟨w', act', [], rfl, fun _ => ⟨hfunc'.trans hfunc, hb'⟩⟩
      · have hwait : Ordered b 1 [wait] := ⟨hfunc'.trans hfunc, hb'⟩
        exact ordered_called hwait hcalled
      · exact absurd htcall (hno a i)
  | act1 :: rest1, ⟨hb, hrest⟩ =>
      obtain ⟨hfits, -, hstep⟩ := hb.step
      refine ⟨hfits, fun hc => ?_⟩
      rcases hstep hc with ⟨w', act', rfl, hb'⟩ | ⟨wait, hb', hcalled⟩ | hcalled
      · exact ⟨w', act', act1 :: rest1, rfl, fun _ => ⟨hb', hrest⟩⟩
      · exact ordered_called (.cons hb' hrest) hcalled
      · exact ordered_called hrest hcalled

/-- What the activation of the block began on is where it was, and so is all
that lies below. -/
theorem ordered_laid {b : Site} {g : Ground} {stack : Nat → Value} {frames : Nat → Frame} :
    ∀ {acts : List Act} {owed top : Nat}, Ordered b owed acts → Laid g stack frames acts top →
      (∀ i < g.base, stack i = g.below i)
        ∧ slice stack g.base b.frame.length = b.frame.reverse
  | [act], owed, top, ⟨_, hb⟩, ⟨base, ⟨hbase, hbelow⟩, _, hslice, _⟩ => by
      subst hbase
      obtain ⟨vs, hslots, -⟩ := hb.slots
      rw [hslots, List.reverse_append] at hslice
      have := (slice_eq_append hslice).1
      rw [List.length_reverse] at this
      exact ⟨hbelow, this⟩
  | act :: act' :: rest, owed, top, ⟨_, hrest⟩, ⟨base, hlaid, _⟩ => ordered_laid hrest hlaid

namespace Vm

/-- Control is between `lo` and `hi` of the activation with `level` frames, or
in a call made from there. -/
def Within (level lo hi : Nat) (s : Vm) : Prop :=
  level < s.frameTop ∨ (s.frameTop = level ∧ lo ≤ s.pc ∧ s.pc < hi)

/-- The activation with `level` frames is about to be left by `TCALL`. -/
def AtTail (level : Nat) (s : Vm) : Prop :=
  s.frameTop = level ∧ ∃ a b, s.fetch = .ok (.tcall, a, b)

/-- The loop as long as control stays in a block. -/
def blockLoop (h : Host) (level lo hi : Nat) : Machine Vm :=
  ⟨step h, fun s => ¬ s.Within level lo hi ∨ s.AtTail level⟩

end Vm

/-- The interpreter is in the block `b`, with everything in order. -/
def Held (b : Site) (g : Ground) (s : Vm) : Prop :=
  s.stackTop ≤ stackSize
    ∧ ∃ act rest, Flat g s (.run s.world act rest) ∧ Ordered b 0 (act :: rest)

theorem Held.running {b : Site} {g : Ground} {s : Vm} (h : Held b g s) :
    ∃ act rest, Flat g s (.run s.world act rest) ∧ Ordered b 0 (act :: rest)
      ∧ s.func = act.func ∧ s.pc = act.pc ∧ s.frameTop = g.level + rest.length + 1
      ∧ s.fetch = act.fetch := by
  obtain ⟨-, act, rest, hflat, hord⟩ := h
  obtain ⟨base, hr⟩ := hflat.running
  exact ⟨act, rest, hflat, hord, hr.func, hr.pc, hr.level, hr.fetch⟩

theorem held_step {b : Site} {g : Ground} {h : Host} {s s' : Vm} (hheld : Held b g s)
    (hnext : (Vm.blockLoop h (g.level + 1) b.lo b.hi).Next s s')
    (hbody : g.level + 1 < s'.frameTop → IsBody s'.func.prot) : Held b g s' := by
  obtain ⟨act, rest, hflat, hord, -, hpc, hlevel, hfetch⟩ := hheld.running
  obtain ⟨hin, hstep⟩ := hnext
  rw [Vm.blockLoop, not_or, not_not] at hin
  obtain ⟨hwithin, htail⟩ := hin
  have hlast : rest = [] → act.pc < b.hi ∧ ∀ a i, act.fetch ≠ .ok (.tcall, a, i) := by
    rintro rfl
    have hframe : s.frameTop = g.level + 1 := hlevel
    refine ⟨?_, fun a i htcall => htail ⟨hframe, a, i, hfetch.trans htcall⟩⟩
    rcases hwithin with hlt | ⟨-, -, hlt⟩
    · omega
    · exact hpc ▸ hlt
  obtain ⟨hfits, hnext⟩ := ordered_step hord hlast
  have hrel := step_refines h hflat hfits (roomy_of_step hheld.1 hstep)
  have hok : s.step h = .ok s' := hstep
  rw [hok] at hrel
  cases hc : stepAct h s.view s.world act rest with
  | raise m => rw [hc] at hrel; cases hrel
  | fault => rw [hc] at hrel; cases hrel
  | ok c =>
      rw [hc] at hrel
      obtain ⟨w, act', rest', rfl, hord'⟩ := hnext hc
      cases hrel with
      | ok hflat' =>
          obtain rfl : w = s'.world := by
            cases hflat'
            rfl
          obtain ⟨base, hr⟩ := hflat'.running
          have hlevel' := hr.level
          refine ⟨step_top hheld.1 _ hok, act', rest', hflat', hord' fun hne => ?_⟩
          have := List.length_pos_iff.mpr hne
          exact hr.func ▸ hbody (by omega)

namespace Vm

/-- Where the running frame begins. -/
def base (s : Vm) : Nat := (s.frames (s.frameTop - 1)).stackTop

/-- The running frame as the outermost activation. -/
def ground (s : Vm) : Ground where
  base := s.base
  below := s.stack
  level := s.frameTop - 1
  func := (s.frames (s.frameTop - 1)).func
  pc := (s.frames (s.frameTop - 1)).retAddr

/-- The values of the running frame. -/
def frameValues (s : Vm) : List Value := (slice s.stack s.base (s.stackTop - s.base)).reverse

theorem length_frameValues (s : Vm) : s.frameValues.length = s.stackTop - s.base := by
  rw [frameValues, List.length_reverse, length_slice]

end Vm

/-- A block at the start of its run. -/
theorem held_start {code : List Instr} {H : Nat → Nat} {lo hi : Nat} {s : Vm}
    (hsteady : Steady instrShape code H lo hi) (hlo : H lo = 0) (hle : lo ≤ hi)
    (hloaded : Loaded code s.func.prot lo hi) (hpc : s.pc = lo) (hframe : 0 < s.frameTop)
    (hbase : s.base ≤ s.stackTop) (htop : s.stackTop ≤ stackSize) :
    Held ⟨s.func, code, lo, hi, H, s.frameValues⟩ s.ground s := by
  have hlen := s.length_frameValues
  refine ⟨htop, ⟨s.func, s.pc, s.frameValues⟩, [], .run rfl rfl ?_ ?_, rfl, hloaded, hsteady, ?_,
    [], rfl, ?_⟩
  · exact (Nat.sub_add_cancel hframe).symm
  · refine ⟨s.base, ⟨rfl, fun _ _ => rfl⟩, ?_, ?_, rfl⟩
    · dsimp only
      omega
    · dsimp only
      rw [hlen, Vm.frameValues, List.reverse_reverse]
  · exact ⟨Nat.le_of_eq hpc.symm, hpc ▸ hle⟩
  · exact hlo.symm.trans (congrArg H hpc.symm)

/-- What the slots below the start of a block hold while control is there. -/
theorem Held.below {b : Site} {s0 s : Vm} (h : Held b s0.ground s)
    (hb : b.frame = s0.frameValues) {i : Nat} (hi : i < s0.stackTop) : s.stack i = s0.stack i := by
  obtain ⟨-, act, rest, hflat, hord⟩ := h
  obtain ⟨_, hr⟩ := hflat.running
  obtain ⟨hbelow, hslice⟩ := ordered_laid hord hr.laid
  rcases Nat.lt_or_ge i s0.base with hlt | hge
  · exact hbelow i hlt
  · rw [hb, s0.length_frameValues, Vm.frameValues, List.reverse_reverse] at hslice
    have hj : i - s0.base < s0.stackTop - s0.base := by omega
    have hget := congrArg (fun l : List Value => l[i - s0.base]?) hslice
    rw [getElem?_slice hj, getElem?_slice hj] at hget
    have hsum : s0.base + (i - s0.base) = i := Nat.add_sub_cancel' hge
    change some (s.stack (s0.base + (i - s0.base))) = _ at hget
    rw [hsum] at hget
    exact Option.some.inj hget

theorem Held.not_halted {b : Site} {g : Ground} {s : Vm} (h : Held b g s)
    (hin : s.Within (g.level + 1) b.lo b.hi) : ¬ s.Halted := by
  obtain ⟨act, rest, -, hord, -, hpc, hlevel, hfetch⟩ := h.running
  have hlt : rest = [] → act.pc < b.hi := by
    rintro rfl
    rw [List.length_nil] at hlevel
    rcases hin with hlt | ⟨-, -, hlt⟩
    · omega
    · exact hpc ▸ hlt
  obtain ⟨inst, hinst⟩ := ordered_fetch hord hlt
  rw [← hfetch] at hinst
  obtain ⟨i, hi, -⟩ := Outcome.bind_eq_ok.mp hinst
  obtain ⟨hlen, -⟩ := List.getElem?_eq_some_iff.mp (Outcome.ofOption_eq_ok.mp hi)
  exact Nat.not_le.mpr hlen

/-- Control can only have left a block at its end. -/
theorem Held.left {b : Site} {g : Ground} {s : Vm} (h : Held b g s)
    (hout : ¬ s.Within (g.level + 1) b.lo b.hi) :
    s.func = b.func ∧ s.frameTop = g.level + 1 ∧ s.pc = b.hi
      ∧ s.stackTop = g.base + b.H b.hi + b.frame.length := by
  obtain ⟨-, act, rest, hflat, hord⟩ := h
  obtain ⟨base, hr⟩ := hflat.running
  have hlevel := hr.level
  rw [Vm.Within, not_or] at hout
  match rest, hord with
  | [], ⟨hfunc, hb⟩ =>
      obtain ⟨hlo, hhi⟩ := hb.range
      have hpc : act.pc = b.hi := by
        by_contra hne
        exact hout.2 ⟨hlevel, hr.pc ▸ hlo, by have := hr.pc; omega⟩
      obtain ⟨vs, hslots, hlen⟩ := hb.slots
      obtain ⟨hbase, -⟩ := hr.below
      have htop := hr.top
      rw [hslots, List.length_append, hbase] at htop
      rw [hpc] at hlen
      exact ⟨hr.func.trans hfunc, hlevel, hr.pc.trans hpc, by omega⟩
  | _ :: _, _ =>
      rw [List.length_cons] at hlevel
      omega

namespace Vm

/-- Executed from `s0` on, the code from `lo` to `hi` puts one value: wherever
control gets to without leaving by `TCALL`, all that was on the stack is
still there; the loop does not end in between, and once control is out of
that code, it is at its end with one value more. -/
def PutsOne (h : Host) (s0 : Vm) (lo hi : Nat) : Prop :=
  ∀ s, (blockLoop h s0.frameTop lo hi).Steps s0 s →
    (∀ i < s0.stackTop, s.stack i = s0.stack i)
      ∧ (s.Within s0.frameTop lo hi → ¬ s.Halted)
      ∧ (¬ s.Within s0.frameTop lo hi → s.func = s0.func ∧ s.frameTop = s0.frameTop
        ∧ s.pc = hi ∧ s.stackTop = s0.stackTop + 1)

/-- The interpreter is about to execute the code from `lo` to `hi` of a
function, in a frame of that function. -/
structure Starts (code : List Instr) (lo hi : Nat) (s : Vm) : Prop where
  loaded : Loaded code s.func.prot lo hi
  pc : s.pc = lo
  frame : 0 < s.frameTop
  base : s.base ≤ s.stackTop
  top : s.stackTop ≤ stackSize

end Vm

/-- A block puts one value if the functions entered meanwhile are bodies. -/
theorem putsOne_of_block {code : List Instr} {h : Host} {lo hi : Nat} {s0 : Vm}
    (hblock : CodeBlock code lo hi 1) (hstart : s0.Starts code lo hi)
    (hbody : ∀ s, (Vm.blockLoop h s0.frameTop lo hi).Steps s0 s →
      s0.frameTop < s.frameTop → IsBody s.func.prot) : s0.PutsOne h lo hi := by
  intro s hsteps
  obtain ⟨hle, H, hH0, hH1, hsteady⟩ := hblock
  obtain ⟨hloaded, hpc, hframe, hbase, htop⟩ := hstart
  have hlevel : s0.ground.level + 1 = s0.frameTop := Nat.sub_add_cancel hframe
  have hheld : Held ⟨s0.func, code, lo, hi, H, s0.frameValues⟩ s0.ground s := by
    induction hsteps with
    | refl => exact held_start hsteady hH0 hle hloaded hpc hframe hbase htop
    | @tail s1 s2 hsteps hnext ih =>
        rw [← hlevel] at hnext
        exact held_step ih hnext fun hlt => hbody s2 (hsteps.tail (hlevel ▸ hnext)) (hlevel ▸ hlt)
  refine ⟨fun i hi => hheld.below rfl hi, fun hin => hheld.not_halted (by rwa [hlevel]),
    fun hout => ?_⟩
  obtain ⟨hfunc, hlevel', hend, htop'⟩ := hheld.left (by rwa [hlevel])
  have hlen := s0.length_frameValues
  have hground : s0.ground.base = s0.base := rfl
  exact ⟨hfunc, hlevel'.trans hlevel, hend, by dsimp only at htop'; omega⟩

/-! ## Generated functions -/

theorem loaded_of_same {code : List Instr} {p : Proto} (h : List.Forall₂ SameInst code p.inst)
    (lo hi : Nat) : Loaded code p lo hi := by
  intro pc i _ _ hcode
  obtain ⟨hlt, rfl⟩ := List.getElem?_eq_some_iff.mp hcode
  have hlt' : pc < p.inst.length := h.length_eq ▸ hlt
  exact ⟨p.inst[pc], List.getElem?_eq_getElem hlt', h.get hlt hlt'⟩

/-- A block for one value and a `RETURN` behind it. -/
theorem isBody_of_block {st : GenState} {p : Proto} (hblock : CodeBlock st.code 0 st.pos 1)
    (hsame : List.Forall₂ SameInst st.function.instructions p.inst) : IsBody p :=
  ⟨st.code ++ [{ op := .return }], st.pos, List.getElem?_concat_length, loaded_of_same hsame _ _,
    hblock.append (Nat.le_refl _) _⟩

/-- The functions the generator makes without defining a macro or negating a
pair in their own code. -/
inductive Clean (p : Proto) : Prop where
  | lambda {optTail inMacroWorld : Bool}
      {expand : List MacroCall → MacroCall → Except String (Sexp × List (Atom × Sexp))}
      {depth : Nat} {ctx : Ctx} {es : List Sexp} {st body : GenState} : es ≠ [] →
      genBody (gen (sourceEnv optTail inMacroWorld expand) depth) ctx es { st with func := {} }
        = .ok ((), body) →
      genBody (gen ((sourceEnv optTail inMacroWorld expand).strict ctx.parents.length) depth) ctx es
        { st with func := {} } = .ok ((), body) →
      List.Forall₂ SameInst body.function.instructions p.inst → Clean p
  | top {optTail inMacroWorld : Bool}
      {expand : List MacroCall → MacroCall → Except String (Sexp × List (Atom × Sexp))}
      {depth : Nat} {e : Sexp} {st st' : GenState} {func : Func} :
      genSexp (sourceEnv optTail inMacroWorld expand) depth e st = .ok (func, st') →
      genSexp ((sourceEnv optTail inMacroWorld expand).strict 0) depth e st = .ok (func, st') →
      List.Forall₂ SameInst func.instructions p.inst → Clean p

theorem putsOne_strict {optTail inMacroWorld : Bool}
    {expand : List MacroCall → MacroCall → Except String (Sexp × List (Atom × Sexp))}
    (depth : Nat) (ctx : Ctx) :
    PutsOne (gen ((sourceEnv optTail inMacroWorld expand).strict ctx.parents.length) depth) ctx :=
  emits_gen (strict_putsOne (fun _ => rfl) _) depth

theorem Clean.isBody {p : Proto} (h : Clean p) : IsBody p := by
  cases h with
  | lambda hne _ hgen hsame =>
      exact isBody_of_block ((emits_genBody (putsOne_strict _ _) hne).block hgen) hsame
  | @top optTail inMacroWorld expand depth e st st' func _ hgen hsame =>
      obtain ⟨_, st0, hempty, hgen⟩ := bind_ok.mp hgen
      cases hempty
      obtain ⟨_, st1, he, hgen⟩ := bind_ok.mp hgen
      obtain ⟨_, st2, hload, hgen⟩ := bind_ok.mp hgen
      obtain ⟨_, st3, hcall, hgen⟩ := bind_ok.mp hgen
      cases hgen
      have hblock1 := (putsOne_strict depth topCtx e false false).block he
      have hblock2 := (emits_genInst (plain_load 0) none st1 () st2 hload).2 0 1 hblock1
      have hblock3 := (emits_callOrTail _ topCtx false none 1 st2 () st3 hcall).2 0 0 hblock2
      exact isBody_of_block hblock3 hsame

/-! ## Expressions -/

section Expressions

variable {optTail inMacroWorld : Bool}
  {expand : List MacroCall → MacroCall → Except String (Sexp × List (Atom × Sexp))} {depth : Nat}
  {ctx : Ctx} {e : Sexp} {tail quoted : Bool} {st st' : GenState}

/-- **Stack discipline.** The code of an expression puts one value, if in the
functions that are executed no macro is defined and no pair negated; and a
`POP` behind it takes that value and nothing else. -/
theorem block_puts_one
    (hgen : gen (sourceEnv optTail inMacroWorld expand) depth ctx e tail quoted st = .ok ((), st'))
    (hstrict : gen ((sourceEnv optTail inMacroWorld expand).strict ctx.parents.length) depth ctx e
      tail quoted st = gen (sourceEnv optTail inMacroWorld expand) depth ctx e tail quoted st)
    (h : Host) {s0 : Vm} (hstart : s0.Starts st'.code st.pos st'.pos)
    (hclean : ∀ s, (Vm.blockLoop h s0.frameTop st.pos st'.pos).Steps s0 s →
      s0.frameTop < s.frameTop → Clean s.func.prot) :
    s0.PutsOne h st.pos st'.pos
      ∧ ∀ s s' b, (Vm.blockLoop h s0.frameTop st.pos st'.pos).Steps s0 s →
        ¬ s.Within s0.frameTop st.pos st'.pos → s.fetch = .ok (.pop, 1, b) → s.step h = .ok s' →
        s'.stackTop = s0.stackTop ∧ ∀ i < s0.stackTop, s'.stack i = s0.stack i := by
  have hblock := (putsOne_strict depth ctx e tail quoted).block (hstrict.trans hgen)
  have hputs : s0.PutsOne h st.pos st'.pos :=
    putsOne_of_block hblock hstart fun s hsteps hlt => (hclean s hsteps hlt).isBody
  refine ⟨hputs, fun s s' b hsteps hout hfetch hstep => ?_⟩
  obtain ⟨hbelow, -, hend⟩ := hputs s hsteps
  obtain ⟨-, -, -, htop⟩ := hend hout
  rw [Vm.step, hfetch, Outcome.ok_bind] at hstep
  change Vm.next <$> s.pop 1 = .ok s' at hstep
  rw [Vm.pop, decide_eq_true (by omega)] at hstep
  cases hstep
  refine ⟨?_, hbelow⟩
  change s.stackTop - 1 = s0.stackTop
  omega

end Expressions

theorem Vm.next_block {h : Host} {level lo hi : Nat} {s s' : Vm} {op : Op} {a : Nat} {b : Int}
    (hin : s.Within level lo hi) (hfetch : s.fetch = .ok (op, a, b)) (hop : op ≠ .tcall)
    (hstep : s.step h = .ok s') : (Vm.blockLoop h level lo hi).Next s s' := by
  refine ⟨?_, hstep⟩
  rintro (hout | ⟨-, a', b', htcall⟩)
  · exact hout hin
  · cases hfetch.symm.trans htcall
    exact hop rfl

/-- In the body of `(lambda (x) ...)`. -/
def inLambda : Ctx := ⟨⟨[atom ['x']], false⟩, [⟨[], true⟩]⟩

/-- A call of a function of one argument, about to execute `code`. -/
def runBody (code : List Instr) : Vm where
  world := ⟨[], mapCreateEmpty, 0, 0, 0⟩
  stack := fun _ => ⟨.number, 0#64⟩
  stackTop := 2
  frames := fun _ => ⟨⟨1, .mk [] [] [] [] [] [], [], []⟩, 0, 0⟩
  frameTop := 1
  func := ⟨1, .mk (code.map asInst) [] [] [] [] [], [], []⟩
  pc := 0

theorem starts_runBody {code : List Instr} (h : ∀ i ∈ code, i.Fits) :
    (runBody code).Starts code 0 code.length where
  loaded := loaded_of_same (List.forall₂_map_right_iff.mpr
    (List.forall₂_same.mpr fun i hi => sameInst_asInst.mpr (h i hi))) 0 code.length
  pc := rfl
  frame := Nat.zero_lt_one
  base := Nat.zero_le _
  top := show 2 ≤ 512 by decide

/-- `(if x ((lambda (y) y) x) x)` -/
def branchForm : Sexp :=
  let x : Sexp := .symbol (atom ['x']) 1
  let y : Sexp := .symbol (atom ['y']) 1
  .sexp [.symbol (atom ['i', 'f']) 1, x,
    .sexp [.sexp [.symbol (atom ['l', 'a', 'm', 'b', 'd', 'a']) 1, .sexp [y] 1, y] 1, x] 1, x] 1

def branchCode : List Instr :=
  [⟨.load, 0, 0⟩, ⟨.test, 4, 0⟩, ⟨.load, 0, 0⟩, ⟨.jmp, 7, 0⟩, ⟨.lambda, 0, 1⟩, ⟨.load, 0, 0⟩,
    ⟨.call, 1, 0⟩]

/-- `(lambda (y) y)` -/
def identityProto : Proto :=
  .mk [asInst ⟨.load, 0, 0⟩, asInst ⟨.return, 0, 0⟩] [] [] [] [] []

/-- A call of a function about to execute that code, with a number for `x`. -/
def branchVm : Vm :=
  { runBody branchCode with
    func := ⟨1, .mk (branchCode.map asInst) [] [] [identityProto] [] [], [], []⟩ }

theorem clean_identity : Clean identityProto :=
  @Clean.lambda identityProto true false noMacros 8 ⟨⟨[atom ['y']], false⟩, [⟨[], true⟩]⟩
    [.symbol (atom ['y']) 1] genStart
    { genStart with func := genStart.func.emit ⟨.load, 0, 0⟩ 1 } (List.cons_ne_nil _ _) rfl rfl
    (.cons (sameInst_asInst.mpr (by simp [Instr.Fits]))
      (.cons (sameInst_asInst.mpr (by simp [Instr.Fits])) .nil))

/-- A block with a branch, in which a closure is made and called. -/
theorem block_puts_one_branch :
    ∃ st' s, gen (sourceEnv true false noMacros) 8 inLambda branchForm false false genStart
        = .ok ((), st')
      ∧ (Vm.blockLoop Vm.quietHost 1 0 st'.pos).Steps branchVm s
      ∧ s.func.prot.inst = identityProto.inst ∧ branchVm.PutsOne Vm.quietHost 0 st'.pos := by
  obtain ⟨st', hgen, hstrict, hcode, hpos⟩ :
      ∃ st', gen (sourceEnv true false noMacros) 8 inLambda branchForm false false genStart
          = .ok ((), st')
        ∧ gen ((sourceEnv true false noMacros).strict inLambda.parents.length) 8 inLambda branchForm
          false false genStart = .ok ((), st')
        ∧ st'.code = branchCode ∧ st'.pos = 7 := ⟨_, rfl, rfl, rfl, rfl⟩
  have hfits : ∀ i ∈ branchCode, i.Fits := by simp [branchCode, Instr.Fits]
  have hstart : branchVm.Starts st'.code 0 st'.pos := by
    rw [hcode, hpos]
    exact { starts_runBody hfits with }
  have hown : ∀ {s s' : Vm} {op : Op} {a : Nat} {b : Int}, s.frameTop = 1 → s.pc < 7 →
      s.fetch = .ok (op, a, b) → op ≠ .tcall → s.step Vm.quietHost = .ok s' →
      (Vm.blockLoop Vm.quietHost 1 0 7).Next s s' := fun hframe hpc =>
    Vm.next_block (Or.inr ⟨hframe, Nat.zero_le _, hpc⟩)
  have hinner : ∀ {s s' : Vm} {op : Op} {a : Nat} {b : Int}, s.frameTop = 2 →
      s.fetch = .ok (op, a, b) → op ≠ .tcall → s.step Vm.quietHost = .ok s' →
      (Vm.blockLoop Vm.quietHost 1 0 7).Next s s' := fun hframe =>
    Vm.next_block (Or.inl (hframe ▸ Nat.lt_succ_self 1))
  have hfirst : ∀ s : Vm, s.frameTop = 1 → 1 < s.frameTop → s.func.prot = identityProto :=
    fun s hframe hlt => absurd hlt (hframe ▸ Nat.lt_irrefl 1)
  have hlast : ∀ s : Vm, s.frameTop = 1 → s.pc = 7 →
      (Vm.blockLoop Vm.quietHost 1 0 7).halted s := fun s hframe hpc =>
    Or.inl (by simp [Vm.Within, hframe, hpc])
  -- the branch is taken, then the closure is made and called, and returns
  have halong : (Vm.blockLoop Vm.quietHost 1 0 7).Along
      (fun s => 1 < s.frameTop → s.func.prot = identityProto) branchVm :=
    .next (hfirst _ rfl) (hown rfl (by decide) rfl (by decide) rfl)
      (.next (hfirst _ rfl) (hown rfl (by decide) rfl (by decide) rfl)
      (.next (hfirst _ rfl) (hown rfl (by decide) rfl (by decide) rfl)
      (.next (hfirst _ rfl) (hown rfl (by decide) rfl (by decide) rfl)
      (.next (hfirst _ rfl) (hown rfl (by decide) rfl (by decide) rfl)
      (.next (fun _ => rfl) (hinner rfl rfl (by decide) rfl)
      (.next (fun _ => rfl) (hinner rfl rfl (by decide) rfl)
      (.last (hfirst _ rfl) (hlast _ rfl rfl))))))))
  have hsteps : ∃ s, (Vm.blockLoop Vm.quietHost 1 0 7).Steps branchVm s ∧ 1 < s.frameTop :=
    ⟨_, .head (hown rfl (by decide) rfl (by decide) rfl)
      (.head (hown rfl (by decide) rfl (by decide) rfl)
      (.head (hown rfl (by decide) rfl (by decide) rfl)
      (.head (hown rfl (by decide) rfl (by decide) rfl)
      (.single (hown rfl (by decide) rfl (by decide) rfl))))), by decide⟩
  obtain ⟨s, hsteps, hlt⟩ := hsteps
  refine ⟨st', s, hgen, hpos.symm ▸ hsteps, congrArg Proto.inst (halong.steps hsteps hlt),
    (block_puts_one hgen (hstrict.trans hgen.symm) Vm.quietHost hstart fun s hs hlt => ?_).1⟩
  rw [hpos] at hs
  exact halong.steps hs hlt ▸ clean_identity

/-- `(macro m () 1)` -/
def macroForm : Sexp :=
  .sexp [.symbol (atom ['m', 'a', 'c', 'r', 'o']) 1, .symbol (atom ['m']) 1, .sexp [] 1,
    .number 0#64 1] 1

/-- `(not x x)` -/
def notForm : Sexp :=
  .sexp [.symbol (atom ['n', 'o', 't']) 1, .symbol (atom ['x']) 1, .symbol (atom ['x']) 1] 1

/-- A macro definition puts no value, so in `(lambda (x) (macro m () 1) x)` the
`POP` behind it removes the argument; the negation of a pair leaves two. -/
theorem macro_pops_argument :
    (∃ st' body s', gen (sourceEnv true false noMacros) 8 inLambda macroForm false false genStart
        = .ok ((), st')
      ∧ genBody (gen (sourceEnv true false noMacros) 8) inLambda
        [macroForm, .symbol (atom ['x']) 1] genStart = .ok ((), body)
      ∧ (runBody [⟨.pop, 1, 0⟩, ⟨.load, 0, 0⟩]).Starts body.code 0 body.pos
      ∧ ¬ (runBody [⟨.pop, 1, 0⟩, ⟨.load, 0, 0⟩]).PutsOne Vm.quietHost genStart.pos st'.pos
      ∧ (runBody [⟨.pop, 1, 0⟩, ⟨.load, 0, 0⟩]).step Vm.quietHost = .ok s' ∧ s'.stackTop = 1)
    ∧ ∃ st', gen (sourceEnv true false noMacros) 8 inLambda notForm false false genStart
        = .ok ((), st')
      ∧ (runBody [⟨.load, 0, 0⟩, ⟨.load, 0, 0⟩, ⟨.not, 0, 0⟩]).Starts st'.code genStart.pos st'.pos
      ∧ ¬ (runBody [⟨.load, 0, 0⟩, ⟨.load, 0, 0⟩, ⟨.not, 0, 0⟩]).PutsOne Vm.quietHost genStart.pos
        st'.pos := by
  have hpop : ∀ i ∈ ([⟨.pop, 1, 0⟩, ⟨.load, 0, 0⟩] : List Instr), i.Fits := by simp [Instr.Fits]
  have hnot : ∀ i ∈ ([⟨.load, 0, 0⟩, ⟨.load, 0, 0⟩, ⟨.not, 0, 0⟩] : List Instr), i.Fits := by
    simp [Instr.Fits]
  refine ⟨⟨_, _, _, rfl, rfl, starts_runBody hpop, fun h => ?_, rfl, rfl⟩,
    _, rfl, starts_runBody hnot, fun h => ?_⟩
  · have hend : ¬ Vm.Within 1 0 0 (runBody [⟨.pop, 1, 0⟩, ⟨.load, 0, 0⟩]) → _ ∧ _ ∧ _ ∧ 2 = 3 :=
      (h _ .refl).2.2
    exact absurd (hend (by simp [Vm.Within, runBody])).2.2.2 (by decide)
  · have hsteps : ∃ s, (Vm.blockLoop Vm.quietHost 1 0 3).Steps
        (runBody [⟨.load, 0, 0⟩, ⟨.load, 0, 0⟩, ⟨.not, 0, 0⟩]) s
        ∧ s.frameTop = 1 ∧ s.pc = 3 ∧ s.stackTop = 4 := by
      have hin : ∀ s : Vm, s.frameTop = 1 → s.pc < 3 → s.Within 1 0 3 :=
        fun s hframe hpc => Or.inr ⟨hframe, Nat.zero_le _, hpc⟩
      exact ⟨_, .head (Vm.next_block (hin _ rfl (by decide)) rfl (by decide) rfl)
        (.head (Vm.next_block (hin _ rfl (by decide)) rfl (by decide) rfl)
          (.head (Vm.next_block (hin _ rfl (by decide)) rfl (by decide) rfl) .refl)), rfl, rfl, rfl⟩
    obtain ⟨s, hsteps, hframe, hpc, htop⟩ := hsteps
    have hend : ¬ s.Within 1 0 3 → _ ∧ _ ∧ _ ∧ s.stackTop = 3 := (h s hsteps).2.2
    have := (hend (by simp [Vm.Within, hframe, hpc])).2.2.2
    omega

end Saurus
