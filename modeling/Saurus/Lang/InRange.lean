import Saurus.Lang.Program
import Saurus.Lang.WellMade

/-!
# Operands at run time

What the generator has made well is well made when it runs, whatever the
program does and however it ends: in every turn of the loop there is an
instruction at the program counter, what its operands name is there, and the
line that `error` would print is one of the source (`operands_in_range`).

The functions that run and wait are all instances of well made code
(`Suspended`). Natives may make functions, but only such ones.
-/

namespace Saurus

open Basis Outcome Codec

/-! ## Prototypes -/

/-- The code of a function with so many arguments, as it is loaded. -/
def Proto.Sound (L : Nat → Prop) (narg : Int) (p : Proto) : Prop :=
  ∃ outer F, Func.WellMade L (arity narg :: outer) F ∧ F.All NodeFits ∧ p = asProto F

/-- The instruction at `pc` is `i`, and what it names is there. -/
structure Instr.At (L : Nat → Prop) (narg : Int) (p : Proto) (pc : Nat) (i : Instr) : Prop where
  inst : p.inst[pc]? = some (asInst i)
  fits : i.Fits
  inRange : i.InRange (arity narg + p.upvalues.length) p.constants.length p.prot.length
    (p.inst.length - 1)
  goesOn : i.op ≠ .return → pc + 1 < p.inst.length
  closes : i.op = .lambda → ∀ q, p.prot[i.a]? = some q → q.Sound L i.b
  line : ∃ n, L n ∧ p.lineinf[pc]? = some (BitVec.ofNat 32 n)

section Protos

variable {L : Nat → Prop} {narg : Int} {p : Proto}

theorem lineinf_asProto (F : Func) :
    (asProto F).lineinf = F.linenr.map (BitVec.ofNat 32) := by
  cases F
  rfl

theorem Proto.Sound.nonempty (h : p.Sound L narg) : 0 < p.inst.length := by
  obtain ⟨outer, F, ⟨code, hcode, -, -, -, -, -⟩, -, rfl⟩ := h
  rw [inst_asProto, hcode, List.length_map, List.length_append]
  exact Nat.succ_pos _

theorem Proto.Sound.at (h : p.Sound L narg) {pc : Nat} (hpc : pc < p.inst.length) :
    ∃ i, Instr.At L narg p pc i := by
  obtain ⟨outer, F, ⟨code, hcode, hinst, -, hclosures, hcount, hlines⟩, hfits, rfl⟩ := h
  rw [inst_asProto, List.length_map] at hpc
  have hlen : F.instructions.length = code.length + 1 := by
    rw [hcode, List.length_append]
    rfl
  obtain ⟨i, hi⟩ : ∃ i, F.instructions[pc]? = some i := ⟨_, List.getElem?_eq_getElem hpc⟩
  obtain ⟨n, hn⟩ : ∃ n, F.linenr[pc]? = some n := ⟨_, List.getElem?_eq_getElem (hcount ▸ hpc)⟩
  have hcases : pc < code.length ∧ i ∈ code ∨ i = { op := .return } := by
    rcases Nat.lt_or_ge pc code.length with hlt | hge
    · rw [hcode, List.getElem?_append_left hlt] at hi
      exact Or.inl ⟨hlt, List.mem_of_getElem? hi⟩
    · obtain rfl : pc = code.length := by omega
      rw [hcode, List.getElem?_concat_length] at hi
      exact Or.inr (Option.some.inj hi).symm
  refine ⟨i, ?_, hfits.root.inst i (List.mem_of_getElem? hi), ?_, fun hop => ?_, fun hop q hq => ?_,
    n, hlines n (List.mem_of_getElem? hn), ?_⟩
  · rw [inst_asProto, List.getElem?_map, hi]
    rfl
  · rw [upvalues_asProto, constants_asProto, prot_asProto, inst_asProto, List.length_map,
      List.length_map, List.length_map, List.length_map, hlen, Nat.add_sub_cancel]
    rcases hcases with ⟨-, hmem⟩ | rfl
    · exact hinst i hmem
    · exact trivial
  · rcases hcases with ⟨hlt, -⟩ | rfl
    · rw [inst_asProto, List.length_map]
      omega
    · exact absurd rfl hop
  · rw [prot_asProto, List.getElem?_map] at hq
    obtain ⟨G, hG, rfl⟩ := Option.map_eq_some_iff.mp hq
    rcases hcases with ⟨-, hmem⟩ | rfl
    · exact ⟨_, G, hclosures i hmem hop G hG, hfits.of_prot (List.mem_of_getElem? hG), rfl⟩
    · cases hop
  · rw [lineinf_asProto, List.getElem?_map, hn]
    rfl

end Protos

/-! ## Functions -/

/-- A function made of such a prototype. -/
structure FunctionObj.Sound (L : Nat → Prop) (fn : FunctionObj) : Prop where
  prot : fn.prot.Sound L fn.narg
  constants : fn.constants.length = fn.prot.constants.length
  upvalues : fn.upvalues.length = fn.prot.upvalues.length

/-- All functions are. -/
def World.Sound (L : Nat → Prop) (w : World) : Prop :=
  ∀ fn, Obj.function fn ∈ w.objects → fn.Sound L

section Functions

variable {L : Nat → Prop} {w w' : World} {fn : FunctionObj}

/-- Whatever is made that is no function. -/
theorem World.Sound.additive (L : Nat → Prop) :
    World.Additive fun w w' => w.Sound L → w'.Sound L where
  of_objects := fun h hw fn hfn => hw fn (h ▸ hfn)
  trans := fun h h' hw => h' (h hw)
  alloc := fun ho r hr hw fn hfn => by
    obtain ⟨heq, -, -⟩ := alloc_ok hr
    rw [heq] at hfn
    rcases List.mem_append.mp hfn with hfn | hfn
    · exact hw fn hfn
    · exact absurd (List.mem_singleton.mp hfn).symm (ho fn)

theorem functionAt_mem {v : Value} (h : functionAt w v = .ok fn) : .function fn ∈ w.objects := by
  obtain ⟨o, ho, hfn⟩ := bind_eq_ok.mp h
  unfold World.object at ho
  split at ho
  · cases ho
  · have hmem := List.mem_of_getElem? (ofOption_eq_ok.mp ho)
    cases o with
    | function f =>
        cases hfn
        exact hmem
    | _ => cases hfn

theorem createValues_length {junk : Nat → BitVec 64} : ∀ {ks : List ProtoConst} {w : World},
    Ensures (createValues junk w ks) fun r => r.2.length = ks.length
  | [], _ => ensures_ok rfl
  | _ :: _, _ => .bind fun _ _ => .bind fun x hx =>
      ensures_ok (congrArg (· + 1) (createValues_length x hx))

theorem captureAll_length {capture : Upvalue → Outcome Value} : ∀ {us : List Upvalue},
    Ensures (captureAll capture us) fun vs => vs.length = us.length
  | [] => ensures_ok rfl
  | _ :: _ => .bind fun _ _ => .bind fun vs hvs =>
      ensures_ok (congrArg (· + 1) (captureAll_length vs hvs))

/-- What `lambda` makes, of a prototype that is sound. The constants are as many
as the prototype has and the upvalues as many as it names, so the new function
is sound; the strings made for the constants are no functions. -/
theorem lambda_sound {junk : Nat → BitVec 64} {p : Proto} {narg : Int}
    {capture : Upvalue → Outcome Value} (hp : p.Sound L narg) (hw : w.Sound L) :
    Ensures (lambda junk w p narg capture) fun r => r.1.Sound L := by
  refine .bind fun x hx => .bind fun ups hups => .bind fun r hr => ensures_ok fun fn hfn => ?_
  obtain ⟨heq, -, -⟩ := alloc_ok hr
  rw [heq] at hfn
  rcases List.mem_append.mp hfn with hfn | hfn
  · exact createValues_additive (World.Sound.additive L) _ x hx hw fn hfn
  · obtain rfl := Obj.function.inj (List.mem_singleton.mp hfn)
    exact ⟨hp, createValues_length x hx, captureAll_length ups hups⟩

theorem enterArgs_arity {args args' : List Value} (h : enterArgs w fn args = .ok (w', args')) :
    args'.length = arity fn.narg := by
  unfold enterArgs at h
  unfold arity
  split at h
  · obtain ⟨x, -, h⟩ := bind_eq_ok.mp h
    cases h
    rw [if_pos ‹_›]
    rfl
  · obtain ⟨_, hcount, h⟩ := bind_eq_ok.mp h
    cases h
    have heq := of_decide_eq_true (check_eq_ok.mp hcount)
    rw [if_neg ‹_›]
    omega

end Functions

/-! ## States -/

/-- The function `fn` is at `pc` in the topmost of `n` frames, and those below
it wait: `fn₀` was called from C, by way of the frame at `level`. -/
def Suspended (L : Nat → Prop) (fn₀ : FunctionObj) (frames : Nat → Frame) (level : Nat) :
    Nat → FunctionObj → Nat → Prop
  | 0, fn, pc => fn = fn₀ ∧ pc = 0xffff
  | n + 1, fn, pc =>
      fn.Sound L ∧ pc < fn.prot.inst.length
        ∧ (frames (level + n)).stackTop + 1 + arity fn.narg + fn.upvalues.length ≤ stackSize
        ∧ Suspended L fn₀ frames level n (frames (level + n)).func (frames (level + n)).retAddr

theorem Suspended.congr {L : Nat → Prop} {fn₀ : FunctionObj} {frames frames' : Nat → Frame}
    {level : Nat} : ∀ {n : Nat} {fn : FunctionObj} {pc : Nat},
    Suspended L fn₀ frames level n fn pc → (∀ k < level + n, frames' k = frames k) →
      Suspended L fn₀ frames' level n fn pc
  | 0, _, _, h, _ => h
  | n + 1, _, _, ⟨hfn, hpc, hroom, hrest⟩, hframes => by
      have htop := hframes (level + n) (by omega)
      refine ⟨hfn, hpc, htop ▸ hroom, ?_⟩
      rw [htop]
      exact hrest.congr fun k hk => hframes k (by omega)

namespace Vm

/-- Every function in the state is sound. -/
structure Sound (L : Nat → Prop) (fn₀ : FunctionObj) (level : Nat) (s : Vm) : Prop where
  world : s.world.Sound L
  stacked : ∃ n, s.frameTop = level + n ∧ Suspended L fn₀ s.frames level n s.func s.pc

/-- Natives make sound functions only. -/
def NativesSound (L : Nat → Prop) (h : Host) : Prop :=
  ∀ f w args r, h.native f w args = .ok r → w.Sound L → r.world.Sound L

/-- Nothing has changed of what decides where a function goes on, and all
functions are sound as before. -/
structure Calm (L : Nat → Prop) (s s' : Vm) : Prop where
  frames : s'.frames = s.frames
  frameTop : s'.frameTop = s.frameTop
  func : s'.func = s.func
  pc : s'.pc = s.pc
  world : s.world.Sound L → s'.world.Sound L

section Local

variable {L : Nat → Prop} {h : Host} {s s' : Vm}

theorem Calm.of_stack {w : World} {stack : Nat → Value} {top : Nat}
    (hw : s.world.Sound L → w.Sound L) :
    Calm L s { s with world := w, stack := stack, stackTop := top } :=
  ⟨rfl, rfl, rfl, rfl, hw⟩

theorem calm_pushFrom (v : Outcome Value) : Ensures (s.pushFrom v) (Calm L s) :=
  .bind fun _ _ => .bind fun _ _ => ensures_ok (.of_stack id)

theorem calm_binary (f : Value → Value → Outcome Value) : Ensures (s.binary f) (Calm L s) :=
  .bind fun _ _ => .bind fun _ _ => .bind fun _ _ => ensures_ok (.of_stack id)

theorem calm_unary (f : Value → Outcome Value) : Ensures (s.unary f) (Calm L s) :=
  .bind fun _ _ => .bind fun _ _ => ensures_ok (.of_stack id)

/-- What an instruction that stays in its frame leaves. -/
structure Stays (L : Nat → Prop) (op : Op) (a : Nat) (s s' : Vm) : Prop where
  frames : s'.frames = s.frames
  frameTop : s'.frameTop = s.frameTop
  func : s'.func = s.func
  pc : s'.pc = s.pc + 1 ∨ (op = .test ∨ op = .jmp) ∧ s'.pc = a
  world : s.world.Sound L → s'.world.Sound L

theorem stays_next {op : Op} {a : Nat} {x : Outcome Vm} (hx : Ensures x (Calm L s)) :
    Ensures (next <$> x) (Stays L op a s) := .map fun s' hs' => by
  have hcalm := hx s' hs'
  exact ⟨hcalm.frames, hcalm.frameTop, hcalm.func, Or.inl (congrArg (· + 1) hcalm.pc), hcalm.world⟩

/-- One case for each instruction that is no call and no return. `OP_LAMBDA` is
the only one that makes a function, of a prototype that is sound. -/
theorem stays_exec {op : Op} {a : Nat} {b : Int} (hop : op.IsLocal)
    (hclosure : op = .lambda → ∀ p, s.func.prot.prot[a]? = some p → p.Sound L b) :
    Ensures (s.exec h op a b) (Stays L op a s) := by
  obtain ⟨hcall, htcall, hret⟩ := hop
  cases op with
  | call => exact absurd rfl hcall
  | tcall => exact absurd rfl htcall
  | «return» => exact absurd rfl hret
  | push => exact stays_next (calm_pushFrom _)
  | pop => exact stays_next (.bind fun _ _ => ensures_ok (.of_stack id))
  | copy => exact stays_next (.bind fun _ _ => .bind fun _ _ => calm_pushFrom _)
  | load => exact stays_next (.bind fun _ _ => calm_pushFrom _)
  | unm | not => exact stays_next (calm_unary _)
  | test =>
      refine .bind fun v _ => .bind fun s1 hs1 => ensures_ok ?_
      obtain ⟨_, -, hs1⟩ := bind_eq_ok.mp hs1
      cases hs1
      split
      · exact ⟨rfl, rfl, rfl, Or.inr ⟨Or.inl rfl, rfl⟩, id⟩
      · exact ⟨rfl, rfl, rfl, Or.inl rfl, id⟩
  | jmp => exact ensures_ok ⟨rfl, rfl, rfl, Or.inr ⟨Or.inr rfl, rfl⟩, id⟩
  | lambda =>
      refine stays_next (.bind fun p hp => .bind fun r hr s1 hs1 => ?_)
      have hcalm := calm_pushFrom (L := L) (s := { s with world := r.1 }) _ s1 hs1
      exact ⟨hcalm.frames, hcalm.frameTop, hcalm.func, hcalm.pc, fun hw =>
        hcalm.world (lambda_sound (hclosure rfl p (ofOption_eq_ok.mp hp)) hw r hr)⟩
  | getglobal => exact .bind fun _ _ => stays_next (calm_pushFrom _)
  | setglobal =>
      exact .bind fun w hw => ensures_ok ⟨rfl, rfl, rfl, Or.inl rfl,
        setGlobal_additive (World.Sound.additive L) _ _ _ w hw⟩
  | _ => exact stays_next (calm_binary _)

end Local

section Steps

variable {L : Nat → Prop} {fn₀ : FunctionObj} {level n a ret : Nat} {h : Host} {s s' : Vm}

/-- The new frame runs a function of the world, so a sound one, from its first
instruction; the one below waits where it goes on. That its slots fit the
stack is required when it is entered. -/
theorem sound_callClosure {tmp : Nat} {f : Value} (hw : s.world.Sound L)
    (hn : s.frameTop = level + n) (hs : Suspended L fn₀ s.frames level n s.func ret) :
    Ensures (s.callClosure tmp a ret f) (Sound L fn₀ level) := by
  refine .bind fun _ _ => .bind fun fn hfn => .bind fun x hx => .bind fun _ _ =>
    .bind fun _ hroom => ensures_ok
      ⟨enterArgs_additive (World.Sound.additive L) fn _ x hx hw, n + 1, ?_, ?_⟩
  · change s.frameTop + 1 = _
    omega
  · have hsound := hw fn (functionAt_mem hfn)
    have hroom := of_decide_eq_true (require_eq_ok.mp hroom)
    rw [enterArgs_arity hx] at hroom
    dsimp only
    rw [hn]
    refine ⟨hsound, hsound.prot.nonempty, ?_, ?_⟩
    · rwa [Function.update_self]
    · rw [Function.update_self]
      exact hs.congr fun k hk => Function.update_of_ne (Nat.ne_of_lt hk) ..

/-- A call, by whichever function goes on behind it. Only a closure gets a frame;
what a native makes is sound by assumption, and vectors and maps make nothing. -/
theorem sound_call (hnative : NativesSound L h) (hw : s.world.Sound L)
    (hn : s.frameTop = level + n) (hs : Suspended L fn₀ s.frames level n s.func ret) :
    Ensures (Vm.call h s a ret) (Sound L fn₀ level) := by
  refine .bind fun _ _ => ?_
  dsimp only
  split
  · exact sound_callClosure hw hn hs
  · exact .bind fun r hr => ensures_ok ⟨hnative _ _ _ r hr hw, n, hn, hs⟩
  · exact .bind fun v _ => ensures_ok ⟨hw, n, hn, hs⟩
  · exact .bind fun v _ => ensures_ok ⟨hw, n, hn, hs⟩
  · exact .bind fun _ _ => ensures_raise

/-- The frame that is left. -/
theorem frame_stacked {frame : Frame} (hn : s.frameTop = level + (n + 1))
    (hframe : s.frame = .ok frame) : frame = s.frames (level + n) := by
  obtain ⟨_, -, hframe⟩ := bind_eq_ok.mp hframe
  cases hframe
  congr 1
  omega

/-- The instruction of a function that runs. While the loop has not ended there
is a frame above `level`, and the instruction that is fetched is one that was
generated, since nothing was cut. -/
theorem Sound.at (hs : s.Sound L fn₀ level) (hlen : fn₀.prot.inst.length ≤ 0xffff)
    (hgo : ¬ s.Halted) : ∃ (n : Nat) (i : Instr), s.frameTop = level + (n + 1)
      ∧ Suspended L fn₀ s.frames level (n + 1) s.func s.pc
      ∧ i.At L s.func.narg s.func.prot s.pc ∧ s.fetch = .ok (i.op, i.a, i.b) := by
  obtain ⟨hw, n, hn, hstacked⟩ := hs
  cases n with
  | zero =>
      obtain ⟨hfunc, hpc⟩ := hstacked
      refine absurd ?_ hgo
      rw [Halted, hfunc, hpc]
      exact hlen
  | succ n =>
      obtain ⟨i, hi⟩ := hstacked.1.prot.at hstacked.2.1
      obtain ⟨hop, ha, hb⟩ := sameInst_asInst.mpr hi.fits
      refine ⟨n, i, hn, hstacked, hi, ?_⟩
      rw [Vm.fetch, hi.inst, Outcome.ofOption_some, Outcome.ok_bind, hop, ha, hb]
      rfl

/-- **One turn** leaves every function sound. An instruction that stays in its
frame goes on behind itself or at its target, both inside of the code; a call
puts a sound frame on top, a return goes back to the frame below, and a tail
call does both. -/
theorem sound_step (hnative : NativesSound L h) (hlen : fn₀.prot.inst.length ≤ 0xffff)
    (hs : s.Sound L fn₀ level) (hgo : ¬ s.Halted) : Ensures (s.step h) (Sound L fn₀ level) := by
  obtain ⟨n, i, hn, hstacked, hi, hfetch⟩ := hs.at hlen hgo
  obtain ⟨hsound, hpc, hroom, hrest⟩ := hstacked
  intro s' hstep
  have hexec : s.exec h i.op i.a i.b = .ok s' := by
    rwa [Vm.step, hfetch] at hstep
  by_cases hlocal : i.op.IsLocal
  · -- within the function
    have hst := stays_exec hlocal (fun hop p => hi.closes hop p) s' hexec
    refine ⟨hst.world hs.world, n + 1, hst.frameTop.trans hn, ?_⟩
    rw [hst.frames, hst.func]
    refine ⟨hsound, ?_, hroom, hrest⟩
    rcases hst.pc with heq | ⟨hop, heq⟩
    · rw [heq]
      exact hi.goesOn hlocal.2.2
    · have hin := hi.inRange
      have hpos := hsound.prot.nonempty
      rw [heq]
      unfold Instr.InRange at hin
      rcases hop with hop | hop <;> rw [hop] at hin <;> dsimp only at hin <;> omega
  · rw [Op.IsLocal, not_and_or, not_and_or, not_not, not_not, not_not] at hlocal
    rcases hlocal with hop | hop | hop
    · rw [hop] at hexec
      have hnext := hi.goesOn (by rw [hop]; simp)
      exact sound_call hnative hs.world hn ⟨hsound, hnext, hroom, hrest⟩ s' hexec
    · rw [hop] at hexec
      obtain ⟨frame, hframe, hexec⟩ := bind_eq_ok.mp hexec
      obtain rfl := frame_stacked hn hframe
      obtain ⟨_, -, hexec⟩ := bind_eq_ok.mp hexec
      refine sound_call hnative (s := s.dropFrame _ _) hs.world ?_ hrest s' hexec
      change s.frameTop - 1 = level + n
      omega
    · rw [hop] at hexec
      obtain ⟨frame, hframe, hexec⟩ := bind_eq_ok.mp hexec
      obtain rfl := frame_stacked hn hframe
      obtain ⟨_, -, hexec⟩ := bind_eq_ok.mp hexec
      obtain ⟨_, -, hexec⟩ := bind_eq_ok.mp hexec
      cases hexec
      refine ⟨hs.world, n, ?_, hrest⟩
      change s.frameTop - 1 = level + n
      omega

/-- **A run** does, by induction on its turns. The function that was called is no
longer than its return address, so the loop ends when it returns. -/
theorem sound_steps (hnative : NativesSound L h) (hlen : fn₀.prot.inst.length ≤ 0xffff)
    (hs : s.Sound L fn₀ level) (hrun : (loop h).Steps s s') : s'.Sound L fn₀ level := by
  induction hrun with
  | refl => exact hs
  | tail _ hnext ih => exact sound_step hnative hlen ih hnext.1 _ hnext.2

end Steps

/-! ## Programs -/

/-- What the operands of `i` name is there. -/
structure Finds (s : Vm) (i : Instr) : Prop where
  constant : i.op = .push ∨ i.op = .getglobal ∨ i.op = .setglobal →
    ∃ v, s.func.constants[i.a]? = some v
  prototype : i.op = .lambda → ∃ p, s.func.prot.prot[i.a]? = some p
  slot : i.op = .load → i.a < arity s.func.narg + s.func.upvalues.length
    ∧ (s.frames (s.frameTop - 1)).stackTop + 1 + i.a < stackSize
  target : i.op = .test ∨ i.op = .jmp → i.a < s.func.prot.inst.length

/-- The line that `error` prints. -/
def errorLine (s : Vm) : Int := (s.func.prot.lineinf[s.pc]?.map BitVec.toInt).getD (-1)

/-- Values are pushed from C. -/
def Pushes (h : Host) : Vm → Vm → Prop :=
  Relation.ReflTransGen fun s s' => ∃ p, s.apiPush h p = .ok s'

section Programs

variable {L : Nat → Prop} {fn₀ : FunctionObj} {level : Nat} {h : Host} {s s' : Vm}

/-- Where all functions are sound, the loop has ended at the level it began at,
or there is an instruction whose operands name what is there, with a line in
`L`. -/
theorem Sound.finds (hs : s.Sound L fn₀ level) (hlen : fn₀.prot.inst.length ≤ 0xffff) :
    s.Halted ∧ s.frameTop = level
      ∨ ∃ i : Instr, s.fetch = .ok (i.op, i.a, i.b) ∧ s.Finds i
        ∧ ∃ n, L n ∧ s.errorLine = (BitVec.ofNat 32 n).toInt := by
  by_cases hhalt : s.Halted
  · obtain ⟨-, n, hn, hstacked⟩ := hs
    cases n with
    | zero => exact Or.inl ⟨hhalt, hn⟩
    | succ n => exact absurd hstacked.2.1 (Nat.not_lt.mpr hhalt)
  · obtain ⟨n, i, hn, ⟨hsound, -, hroom, -⟩, hi, hfetch⟩ := hs.at hlen hhalt
    have hin := hi.inRange
    have hpos := hsound.prot.nonempty
    unfold Instr.InRange at hin
    rw [← hsound.upvalues, ← hsound.constants] at hin
    refine Or.inr ⟨i, hfetch, ⟨fun hop => ?_, fun hop => ?_, fun hop => ?_, fun hop => ?_⟩, ?_⟩
    · rcases hop with hop | hop | hop <;> rw [hop] at hin <;>
        exact ⟨_, List.getElem?_eq_getElem hin⟩
    · rw [hop] at hin
      exact ⟨_, List.getElem?_eq_getElem hin⟩
    · rw [hop] at hin
      dsimp only at hin
      refine ⟨hin, ?_⟩
      rw [show s.frameTop - 1 = level + n by omega]
      omega
    · rcases hop with hop | hop <;> rw [hop] at hin <;> dsimp only at hin <;> omega
    · obtain ⟨n, hn, hline⟩ := hi.line
      refine ⟨n, hn, ?_⟩
      rw [errorLine, hline]
      rfl

/-- The function that `lambda` makes. -/
theorem lambda_functionAt {junk : Nat → BitVec 64} {w : World} {p : Proto} {narg : Int}
    {capture : Upvalue → Outcome Value} :
    Ensures (lambda junk w p narg capture) fun r => r.2.type = .function
      ∧ ∃ fn, r.1.object r.2.addr = .ok (.function fn) ∧ fn.narg = narg ∧ fn.prot = p := by
  refine .bind fun x _ => .bind fun ups _ => .bind fun r hr =>
    ensures_ok ⟨rfl, ⟨narg, p, x.2, ups⟩, ?_, rfl, rfl⟩
  obtain ⟨heq, haddr, hlt⟩ := alloc_ok hr
  have hbound : r.2 < 2 ^ 64 := by
    rw [haddr]
    rw [heq] at hlt
    simpa [World.Addressable] using hlt
  rw [addr_objValue hbound]
  exact object_alloc_self hr

/-- What pushes from C leave as it is. -/
structure Kept (L : Nat → Prop) (s s' : Vm) : Prop where
  frameTop : s'.frameTop = s.frameTop
  top : s.stackTop ≤ s'.stackTop
  room : s.stackTop ≤ stackSize → s'.stackTop ≤ stackSize
  below : ∀ i < s.stackTop, s'.stack i = s.stack i
  remains : s.world.Remains s'.world
  world : s.world.Sound L → s'.world.Sound L

theorem kept_apiPush (p : ApiPush) : Ensures (s.apiPush h p) (Kept L s) := by
  refine .bind fun r hr => .bind fun _ hroom => .bind fun v _ => ensures_ok ?_
  have hroom := of_decide_eq_true (check_eq_ok.mp hroom)
  have hr : s.world.Remains r.1 ∧ (s.world.Sound L → r.1.Sound L) := by
    cases p with
    | bytes str =>
        exact ⟨internString_additive World.Remains.additive str r hr,
          internString_additive (World.Sound.additive L) str r hr⟩
    | _ =>
        cases hr
        exact ⟨.rfl, id⟩
  exact ⟨rfl, Nat.le_succ _, fun _ => hroom, fun i hi => Function.update_of_ne (Nat.ne_of_lt hi) ..,
    hr.1, hr.2⟩

theorem kept_pushes (hpush : Pushes h s s') : Kept L s s' := by
  induction hpush with
  | refl => exact ⟨rfl, Nat.le_refl _, id, fun _ _ => rfl, .rfl, id⟩
  | tail _ hstep ih =>
      obtain ⟨p, hp⟩ := hstep
      have hk := kept_apiPush (L := L) p _ hp
      exact ⟨hk.frameTop.trans ih.frameTop, Nat.le_trans ih.top hk.top,
        fun hr => hk.room (ih.room hr),
        fun i hi => (hk.below i (Nat.lt_of_lt_of_le hi ih.top)).trans (ih.below i hi),
        ih.remains.trans hk.remains, fun hw => hk.world (ih.world hw)⟩

end Programs

end Vm

/-- The program `e` is written to `bytes`, and everything in it fits: no operand
is cut, in no function, and its end is below the return address of a call from
C. -/
structure WrittenAs (env : GenEnv) (e : Sexp) (F : Func) (bytes : List Byte) : Prop where
  generated : ∃ depth st st', genSexp env depth e st = .ok (F, st')
  written : ∃ name, compile F name = .ok bytes ∧ (F.named (name.getD [0x3f#8])).All NodeFits
  short : F.instructions.length ≤ 0xffff

/-- A program that was called from C is sound when it begins. What was pushed
between its load and the call leaves the slot of the function alone, and the
call pushes one frame, at the first instruction. -/
theorem sound_called {h : Host} {L : Nat → Prop} {s s1 s2 s3 : Vm} {p : Proto} {narg : Nat}
    (hp : p.Sound L (-1)) (hup : p.upvalues = []) (hw : s.world.Sound L)
    (hload : pushLoaded h s p = .ok (0, s1)) (hpush : Vm.Pushes h s1 s2)
    (hnarg : s2.stackTop = s1.stackTop + narg) (hpos : 0 < narg)
    (henter : s2.suEnter narg = .ok s3) :
    ∃ fn, fn.prot = p ∧ s3.Sound L fn s2.frameTop := by
  obtain ⟨r, hr, hload⟩ := bind_eq_ok.mp hload
  obtain ⟨s1', hs1, hload⟩ := bind_eq_ok.mp hload
  cases hload
  obtain ⟨_, hroom, hs1⟩ := bind_eq_ok.mp hs1
  cases hs1
  have hroom : s.stackTop < stackSize := of_decide_eq_true (check_eq_ok.mp hroom)
  obtain ⟨ht, fn, hobj, hcount, hprot⟩ := Vm.lambda_functionAt r hr
  have hw1 : r.1.Sound L := lambda_sound hp hw r hr
  obtain ⟨-, htop, hroom2, hbelow, hremains, hworld⟩ := Vm.kept_pushes (L := L) hpush
  dsimp only at hnarg htop hroom2 hbelow hremains hworld
  -- the function that is called is the one that was loaded
  have hslot : s2.stack s.stackTop = r.2 :=
    (hbelow _ (Nat.lt_succ_self _)).trans (Function.update_self ..)
  have hat : functionAt s2.world r.2 = .ok fn := by
    rw [functionAt, hremains _ (.function fn) trivial hobj]
    rfl
  obtain ⟨_, hfits, henter⟩ := bind_eq_ok.mp henter
  obtain ⟨_, -, henter⟩ := bind_eq_ok.mp henter
  rw [show s2.stackTop - narg - 1 = s.stackTop by omega, hslot, hat, Outcome.ok_bind] at henter
  obtain ⟨_, -, henter⟩ := bind_eq_ok.mp henter
  cases henter
  have hsound : fn.Sound L := hworld hw1 fn (functionAt_mem hat)
  have htop : Function.update s2.frames s2.frameTop ⟨fn, s.stackTop, 0xffff⟩ (s2.frameTop + 0)
      = ⟨fn, s.stackTop, 0xffff⟩ := Function.update_self ..
  refine ⟨fn, hprot, hworld hw1, 1, rfl, hsound, hsound.prot.nonempty, ?_, ?_⟩
  · dsimp only
    rw [htop, hsound.upvalues, hprot, hup, hcount]
    change s.stackTop + 1 + 1 + 0 ≤ stackSize
    have := hroom2 hroom
    omega
  · dsimp only
    rw [htop]
    exact ⟨rfl, rfl⟩

section Runs

variable {env : GenEnv} {e : Sexp} {F : Func} {bytes rest : List Byte} {input : ReaderBuffer}
  {h : Host} {junk : Load.HeaderJunk} {L : Nat → Prop} {s s1 s2 s3 s' : Vm} {narg : Nat}

/-- What is reached in the run of a program that was called from C: the generator
makes well made code (`genSexp_wellMade`), it is loaded as that code, sound when
it begins (`sound_called`) and after every turn (`sound_steps`). -/
theorem sound_program (henv : ∀ depth, env.special depth = specialNamed) (hexp : env.Rebuilds)
    (hprogram : WrittenAs env e F bytes) (hL : ∀ n, e.HasLine n → L n)
    (hnative : Vm.NativesSound L h) (hw : s.world.Sound L) (hinput : Holds input (bytes ++ rest))
    (hload : suLoad h junk input s = .ok (0, s1)) (hpush : Vm.Pushes h s1 s2)
    (hnarg : s2.stackTop = s1.stackTop + narg) (hpos : 0 < narg)
    (henter : s2.suEnter narg = .ok s3) (hrun : (Vm.loop h).Steps s3 s') :
    ∃ fn, s'.Sound L fn s2.frameTop ∧ fn.prot.inst.length ≤ 0xffff := by
  obtain ⟨⟨depth, st, st', hgen⟩, ⟨name, hcompile, hfits⟩, hlen⟩ := hprogram
  have hmade := ((genSexp_wellMade henv hexp hgen).imp hL).named (name.getD [0x3f#8])
  have hup := up_genSexp hgen
  have htables : F.All TablesFit := by
    have hnamed := hfits.imp fun _ hf => hf.tables
    cases F
    exact hnamed
  rw [suLoad_compiled hcompile htables hinput] at hload
  have hsame : (F.named (name.getD [0x3f#8])).instructions = F.instructions
      ∧ (F.named (name.getD [0x3f#8])).up = F.up := by
    cases F
    exact ⟨rfl, rfl⟩
  obtain ⟨fn, hprot, hs3⟩ := sound_called ⟨[], _, hmade, hfits, rfl⟩
    (by rw [upvalues_asProto, hsame.2, hup]; rfl) hw hload hpush hnarg hpos henter
  have hshort : fn.prot.inst.length ≤ 0xffff := by
    rw [hprot, inst_asProto, List.length_map, hsame.1]
    exact hlen
  exact ⟨fn, Vm.sound_steps hnative hshort hs3 hrun, hshort⟩

end Runs

theorem Vm.pushes_withNumber {h : Host} {s : Vm} (hroom : s.stackTop < stackSize)
    (n : BitVec 64) : Vm.Pushes h s (s.withNumber n) := by
  refine .single ⟨.number n, ?_⟩
  change s.pushFrom (.ok ⟨.number, n⟩) = _
  rw [Vm.pushFrom, decide_eq_true hroom]
  rfl

end Saurus
