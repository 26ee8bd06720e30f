import Mathlib.Data.List.Chain
import Saurus.Vm.Repl

/-!
# What the frames point to

`error` goes through the frames for the name of a function, and `OP_RETURN`
and `OP_TCALL` take `s->prot` from `*s->frame`. Both take `frame->func` for a
function. `OP_CALL` puts the calling function there and `su_call` the callee,
before it looks at the type of it: while a native runs that `su_call` was
given, its frame points to code.
-/

namespace Saurus

open Basis

namespace Recover

/-! ## Readers of the frames -/

/-- `func->prot`, of what need not be a function. -/
def Pointee.prot : Pointee → Outcome Proto
  | .closure fn => .ok fn.prot
  | .native _ => .fault

/-- The loop of `error`: the newest name that is not empty, or `"?"`. -/
def filename : List Record → Outcome (List Byte)
  | [] => .ok [0x3f#8, 0#8]
  | fr :: frames => do
      let prot ← fr.func.prot
      if prot.name.length ≠ 0 then pure prot.name else filename frames

/-- `s->prot->lineinf[s->pc]`, if there is one. -/
def Regs.line (r : Regs) : Option (BitVec 32) := do
  let prot ← r.prot
  if r.pc < 0 then none else prot.lineinf[r.pc.toNat]?

/-- The place that `error` prints, with `-1` for a line it does not know. -/
def Regs.place (r : Regs) : Outcome (List Byte × Int) := do
  let name ← filename r.live
  pure (name, (r.line.map BitVec.toInt).getD (-1))

/-- Every frame is of a function. -/
def Regs.Typed (r : Regs) : Prop := ∀ k < r.frameTop, (r.frames k).func.IsClosure

/-- The frames are of functions, and what reads them finds functions: `error`,
if it is called now, and the next instruction, in its own frame. -/
structure Sound (i : Interp) : Prop where
  typed : i.regs.Typed
  place : i.regs.place ≠ .fault
  restored : ∀ func saved acts op a, i.acts = .suCall .turn func saved :: acts →
    i.regs.inst = some (op, a) → op = .return ∨ op = .tcall → i.regs.frameTop ≠ 0 →
    i.regs.record.func.IsClosure

/-- `su_call` is given a native. -/
def CallsDirect (i j : Interp) : Prop := ∃ saved, j.acts = .direct saved :: i.acts

/-! ## Steps -/

variable {i₀ i j : Interp} {r : Regs}

/-- What holds while `su_call` is given functions only. -/
structure Plain (i : Interp) : Prop where
  typed : i.regs.Typed
  acts : ∀ saved, .direct saved ∉ i.acts
  newest : Loops i.acts → i.regs.frame = i.regs.frameTop

theorem Regs.Typed.push (h : r.Typed) {fr : Record} (hfr : fr.func.IsClosure) :
    (r.push fr).Typed := by
  intro k hk
  rw [push_frames]
  split
  · exact hfr
  · exact h k (Nat.lt_of_le_of_ne (Nat.le_of_lt_succ hk) ‹_›)

theorem Regs.Typed.pop (h : r.Typed) {k : Nat} (hk : k < r.frameTop - 1) :
    (r.frames k).func.IsClosure :=
  h k (Nat.lt_of_lt_of_le hk (Nat.sub_le ..))

theorem not_direct_cons {act : Activation} {acts : List Activation}
    (h : ∀ saved, .direct saved ∉ acts) (hact : ∀ saved, act ≠ .direct saved) :
    ∀ saved, .direct saved ∉ act :: acts := by
  intro saved hmem
  rcases List.mem_cons.mp hmem with heq | hmem
  · exact hact saved heq.symm
  · exact h saved hmem

/-- One step, by cases of what it does to the frames. -/
theorem plain_step (h : Plain i) (hs : Step i j) (hdirect : ¬ CallsDirect i j) : Plain j := by
  obtain ⟨htyped, hacts, hnewest⟩ := h
  have htail : ∀ {act : Activation} {acts}, (∀ saved, .direct saved ∉ act :: acts) →
      ∀ saved, .direct saved ∉ acts := fun h saved hmem => h saved (.tail _ hmem)
  cases hs with
  | api => exact ⟨htyped, hacts, hnewest⟩
  | suCall =>
      exact ⟨htyped.push trivial, not_direct_cons hacts nofun, fun hloops => hloops.elim⟩
  | suCallNative => exact absurd ⟨_, rfl⟩ hdirect
  | start => exact ⟨htyped, not_direct_cons (htail hacts) nofun, fun _ => rfl⟩
  | within => exact ⟨htyped, hacts, hnewest⟩
  | pushFrame =>
      exact ⟨htyped.push trivial, not_direct_cons (htail hacts) nofun, fun _ => rfl⟩
  | goInto =>
      exact ⟨htyped, not_direct_cons (htail hacts) nofun, fun _ => hnewest (loops_cons nofun)⟩
  | callNative hc =>
      refine ⟨htyped, not_direct_cons (not_direct_cons (htail hacts) nofun) nofun, fun _ => ?_⟩
      cases hc <;> exact hnewest (loops_cons nofun)
  | callData hc =>
      refine ⟨htyped, not_direct_cons (htail hacts) nofun, fun _ => ?_⟩
      cases hc <;> exact hnewest (loops_cons nofun)
  | dropFrame | ret =>
      exact ⟨fun k hk => htyped.pop hk, not_direct_cons (htail hacts) nofun, fun _ => rfl⟩
  | nativeReturn =>
      refine ⟨htyped, htail hacts, fun hloops => hnewest ?_⟩
      obtain ⟨phase, func, saved, hmem⟩ := hloops.mem
      exact ⟨phase, func, saved, .tail _ hmem⟩
  | exit => exact ⟨htyped, htail hacts, fun _ => hnewest (loops_cons nofun)⟩
  | @directReturn _ _ saved => exact absurd List.mem_cons_self (hacts saved)

/-- An error that the host catches leaves the frames. -/
theorem plain_move (h₀ : i₀.acts = []) (h : Plain i) (hm : Move i₀ i j)
    (hdirect : ¬ CallsDirect i j) : Plain j := by
  cases hm with
  | step hs => exact plain_step h hs hdirect
  | error =>
      refine ⟨h.typed, fun saved hmem => ?_, fun hloops => ?_⟩
      · rw [recover, h₀] at hmem
        cases hmem
      · rw [recover, h₀] at hloops
        obtain ⟨_, _, _, hmem⟩ := hloops
        cases hmem

/-! ## What reads the frames -/

theorem filename_ok : ∀ {frames : List Record}, (∀ fr ∈ frames, fr.func.IsClosure) →
    ∃ name, filename frames = .ok name
  | [], _ => ⟨_, rfl⟩
  | ⟨.native _, _, _⟩ :: _, h => (h _ List.mem_cons_self).elim
  | ⟨.closure fn, _, _⟩ :: frames, h => by
      obtain ⟨name, hname⟩ := filename_ok fun fr hfr => h fr (.tail _ hfr)
      rw [filename, Pointee.prot, Outcome.ok_bind]
      split
      · exact ⟨_, rfl⟩
      · exact ⟨name, hname⟩

theorem mem_lastFirst {α : Type} {f : Nat → α} {x : α} : ∀ {n : Nat}, x ∈ lastFirst f n →
    ∃ k < n, f k = x
  | 0, h => nomatch h
  | n + 1, h => by
      rcases List.mem_cons.mp h with heq | h
      · exact ⟨n, Nat.lt_succ_self n, heq.symm⟩
      · obtain ⟨k, hk, hx⟩ := mem_lastFirst h
        exact ⟨k, Nat.lt_succ_of_lt hk, hx⟩

theorem Regs.Typed.place (h : r.Typed) : r.place ≠ .fault := by
  have hlive : ∀ fr ∈ r.live, fr.func.IsClosure := by
    intro fr hfr
    obtain ⟨k, hk, rfl⟩ := mem_lastFirst hfr
    exact h k hk
  obtain ⟨name, hname⟩ := filename_ok hlive
  rw [Regs.place, hname]
  nofun

theorem Plain.sound (h : Plain i) : Sound i where
  typed := h.typed
  place := h.typed.place
  restored := by
    intro func saved acts op a hacts _ _ htop
    have hnewest := h.newest (hacts ▸ loops_cons nofun)
    rw [Regs.record, hnewest]
    exact h.typed _ (by omega)

/-- The frame of the native is the newest one. -/
theorem not_typed_direct (h₀ : i₀.acts = []) (hm : Move i₀ i j) (hdirect : CallsDirect i j) :
    ¬ j.regs.Typed := by
  obtain ⟨saved, hacts⟩ := hdirect
  cases hm with
  | error =>
      rw [recover, h₀] at hacts
      cases hacts
  | step hs =>
      cases hs with
      | @suCallNative acts r ptr narg =>
          intro htyped
          have hfr := htyped r.frameTop (Nat.lt_succ_self _)
          rw [Regs.push_frames, if_pos rfl] at hfr
          exact hfr
      | _ => cases hacts

/-! ## Runs -/

theorem plain_init (h₀ : i₀.acts = []) (htyped : i₀.regs.Typed) : Plain i₀ where
  typed := htyped
  acts := by
    intro saved hmem
    rw [h₀] at hmem
    cases hmem
  newest := by
    intro hloops
    rw [h₀] at hloops
    obtain ⟨_, _, _, hmem⟩ := hloops
    cases hmem

/-- A run from any state without a frame of a native. -/
theorem sound_iff_of_plain (h₀ : i₀.acts = []) {run : List Interp} (hplain : Plain i)
    (hrun : (i :: run).IsChain (Move i₀)) :
    (∀ j ∈ run, Sound j) ↔ (i :: run).IsChain fun i j => ¬ CallsDirect i j := by
  induction run generalizing i with
  | nil => exact ⟨fun _ => .singleton i, fun _ j hj => nomatch hj⟩
  | cons j run ih =>
      obtain ⟨hmove, hrest⟩ := List.isChain_cons_cons.mp hrun
      rw [List.forall_mem_cons, List.isChain_cons_cons]
      have hstep : Sound j ↔ ¬ CallsDirect i j :=
        ⟨fun hj hdirect => not_typed_direct h₀ hmove hdirect hj.typed,
          fun hdirect => (plain_move h₀ hplain hmove hdirect).sound⟩
      rw [hstep]
      exact and_congr_right fun hdirect => ih (plain_move h₀ hplain hmove hdirect) hrest

/-- **Every frame is of a function**, and `error`, `OP_RETURN` and `OP_TCALL`
find one where they look for it, in every state of exactly the runs in which
`su_call` is given no native. -/
theorem frames_sound_iff (h₀ : i₀.acts = []) (htyped : i₀.regs.Typed) {run : List Interp}
    (hrun : (i₀ :: run).IsChain (Move i₀)) :
    (∀ i ∈ run, Sound i) ↔ (i₀ :: run).IsChain fun i j => ¬ CallsDirect i j :=
  sound_iff_of_plain h₀ (plain_init h₀ htyped) hrun

/-! ## A function and a native -/

/-- The host has pushed `n` values. -/
def pushed (n : Nat) : Interp := ⟨[], { repl.regs with stackTop := n }⟩

/-- It has called the last of them, a native at `ptr`. -/
def inNative (ptr : BitVec 64) : Interp :=
  ⟨[.direct (pushed 1).regs.save],
    { (pushed 1).regs.push ⟨.native ptr, 0, 0xffff⟩ with narg := 0 }⟩

/-- While `su_call` runs a native for the host, `error` looks for a function in
the native's code. -/
theorem native_frame_unsound :
    [repl, pushed 1, inNative 0x401000#64].IsChain (Move repl)
      ∧ InC (inNative 0x401000#64).acts ∧ ¬ (inNative 0x401000#64).regs.Typed
      ∧ (inNative 0x401000#64).regs.place = .fault := by
  have hpush : Move repl repl (pushed 1) := .step (.api trivial) List.nil_suffix
  have hcall : Step (pushed 1) (inNative 0x401000#64) :=
    .suCallNative (r := (pushed 1).regs) (show InC [] from trivial) (Nat.le_refl 1)
      (Nat.succ_pos _)
  refine ⟨.cons_cons hpush (.cons_cons (.step hcall List.nil_suffix) (.singleton _)), trivial,
    fun h => ?_, rfl⟩
  exact h 0 Nat.zero_lt_one

/-- It has called a function of one argument. -/
def inFunction (fn : FunctionObj) : Interp :=
  ⟨[.suCall .enter fn (pushed 2).regs.save],
    { (pushed 2).regs.push ⟨.closure fn, 0, 0xffff⟩ with narg := 1 }⟩

/-- The host calls a function, whose frame is a function's. -/
theorem function_frame_sound : Sound (pushed 2) ∧ Sound (inFunction (lineFn unboundBody)) := by
  have hpush : Move repl repl (pushed 2) := .step (.api trivial) List.nil_suffix
  have hcall : Step (pushed 2) (inFunction (lineFn unboundBody)) :=
    .suCall (r := (pushed 2).regs) (show InC [] from trivial) (Nat.le_refl 2) (Nat.succ_pos _)
  have hrun : [repl, pushed 2, inFunction (lineFn unboundBody)].IsChain (Move repl) :=
    .cons_cons hpush (.cons_cons (.step hcall List.nil_suffix) (.singleton _))
  have hnone : repl.regs.Typed := fun k hk => absurd hk (Nat.not_lt_zero k)
  have hsound : ∀ i ∈ [pushed 2, inFunction (lineFn unboundBody)], Sound i := by
    refine (frames_sound_iff rfl hnone hrun).mpr (.cons_cons ?_ (.cons_cons ?_ (.singleton _)))
    · rintro ⟨saved, h⟩
      cases h
    · rintro ⟨saved, h⟩
      cases h
  exact ⟨hsound _ List.mem_cons_self, hsound _ (List.mem_cons_of_mem _ List.mem_cons_self)⟩

end Recover

end Saurus
