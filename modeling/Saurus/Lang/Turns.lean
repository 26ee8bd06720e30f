import Saurus.Basis.Follows
import Saurus.Gen.Discipline
import Saurus.Lang.Closures
import Saurus.Vm.Tail

/-!
# Functions at work

`Active` is a function of a program that runs in the interpreter: its code,
and the slots that stand for what its scope binds. Between two turns all
there is to tell is what was put on the stack since (`Vm.Yields`), or that
the function has returned (`Vm.HandsBack`). Instructions that stay in the function
go from one to the next (`Active.puts`).

Where the stack, the frames or the memory do not suffice, the interpreter
stops with an error or an assertion that the meaning of a program knows
nothing of (`Vm.Full`).
-/

namespace Saurus

open Basis

/-! ## Room -/

namespace Vm

/-- How many objects and strings the next instruction may add, calls apart. -/
def demand (s : Vm) : Nat :=
  match s.fetch with
  | .ok (.lambda, a, _) => ((s.func.prot.prot[a]?).map fun p => p.constants.length).getD 0 + 1
  | .ok (.setglobal, _, _) => 4
  | _ => 0

/-- The next instruction lacks room in the stack, in the frames or in memory. -/
def Full (h : Host) (s : Vm) : Prop :=
  ¬ Roomy s ∨ ¬ s.world.Spare s.demand ∨ s.step h = .raise "Out of memory!"

end Vm

/-! ## States -/

/-- A function of the program runs, with the code `F`, in a frame that holds
what `ρ` binds. -/
structure Active (env : GenEnv) (U : Set (List Byte)) (F : Func) (ρ : Env) (γ : Globals)
    (s : Vm) : Prop where
  prot : s.func.prot = asProto F
  constants : ShowConsts s.world F.const s.func.constants
  tame : F.All (Tame U)
  running : 0 < s.frameTop
  level : s.frameTop ≤ maxCalls
  self : Rep env U s.world ρ.self (s.stack s.base)
  own : ∀ (i : Nat) p, ρ.own[i]? = some p → Rep env U s.world p.2 (s.stack (s.base + 1 + i))
  ups : ∀ (k : Nat) u x, F.up[k]? = some u → upvalueIn ρ.outer u = some x →
    Rep env U s.world x (s.stack (s.base + 1 + ρ.own.length + k))
  height : s.base + 1 + ρ.own.length + F.up.length ≤ s.stackTop
  room : s.stackTop ≤ stackSize
  strung : s.world.Strung U
  globals : Defines env U γ s.world

namespace Vm

/-- From `s`, control came to `pc` in the same function, and values that
stand for `xs` were put on the stack. -/
structure Yields (env : GenEnv) (U : Set (List Byte)) (s : Vm) (pc : Nat) (γ : Globals)
    (xs : List SVal) (s' : Vm) : Prop where
  remains : s.world.Remains s'.world
  strung : s'.world.Strung U
  globals : Defines env U γ s'.world
  func : s'.func = s.func
  pc : s'.pc = pc
  frameTop : s'.frameTop = s.frameTop
  frames : ∀ k < s.frameTop, s'.frames k = s.frames k
  top : s'.stackTop = s.stackTop + xs.length
  room : s'.stackTop ≤ stackSize
  below : ∀ i < s.stackTop, s'.stack i = s.stack i
  values : RepAll env U s'.world xs (s'.window s.stackTop xs.length)

/-- The function that runs in `s` has returned a value that stands for `x`. -/
structure HandsBack (env : GenEnv) (U : Set (List Byte)) (s : Vm) (γ : Globals) (x : SVal)
    (s' : Vm) : Prop where
  remains : s.world.Remains s'.world
  strung : s'.world.Strung U
  globals : Defines env U γ s'.world
  room : s'.stackTop ≤ stackSize
  returned : ∃ v, Returned s (s.frames (s.frameTop - 1)) s'.world v s' ∧ Rep env U s'.world x v

end Vm

section States

variable {env : GenEnv} {U : Set (List Byte)} {F : Func} {ρ : Env} {γ γ' : Globals}
  {xs ys : List SVal} {s s' s'' : Vm} {pc pc' : Nat} {x : SVal}

namespace Vm

theorem Yields.refl (hs : s.world.Strung U) (hd : Defines env U γ s.world)
    (hroom : s.stackTop ≤ stackSize) : s.Yields env U s.pc γ [] s :=
  ⟨.rfl, hs, hd, rfl, rfl, rfl, fun _ _ => rfl, rfl, hroom, fun _ _ => rfl, .nil⟩

theorem Yields.trans (h : s.Yields env U pc γ xs s') (h' : s'.Yields env U pc' γ' ys s'') :
    s.Yields env U pc' γ' (xs ++ ys) s'' where
  remains := h.remains.trans h'.remains
  strung := h'.strung
  globals := h'.globals
  func := h'.func.trans h.func
  pc := h'.pc
  frameTop := h'.frameTop.trans h.frameTop
  frames := fun k hk => (h'.frames k (h.frameTop ▸ hk)).trans (h.frames k hk)
  top := by rw [h'.top, h.top, List.length_append, Nat.add_assoc]
  room := h'.room
  below := fun i hi => (h'.below i (by have := h.top; omega)).trans (h.below i hi)
  values := by
    have hlower : s''.window s.stackTop xs.length = s'.window s.stackTop xs.length :=
      slice_congr fun j _ hj => h'.below j (by have := h.top; omega)
    have hlow := h.values.remains h'.remains
    rw [← hlower] at hlow
    rw [window, List.length_append, slice_add, ← h.top]
    exact List.rel_append hlow h'.values

theorem Yields.base (h : s.Yields env U pc γ xs s') (hpos : 0 < s.frameTop) : s'.base = s.base := by
  rw [Vm.base, Vm.base, h.frameTop, h.frames _ (by omega)]

/-- The values on top give way to others. -/
theorem Yields.replace (h : s.Yields env U pc γ ys s') {w : World} (vs : List Value)
    {zs : List SVal} (hw : s'.world.Remains w) (hs : w.Strung U) (hd : Defines env U γ' w)
    (hvs : RepAll env U w zs vs.reverse) (hroom : s.stackTop + zs.length ≤ stackSize) :
    s.Yields env U pc' γ' zs (s'.replace ys.length (w, vs, pc')) := by
  have htop : s'.stackTop - ys.length = s.stackTop := by
    rw [h.top, Nat.add_sub_cancel]
  have hlen : zs.length = vs.length := by rw [hvs.length_eq, List.length_reverse]
  refine ⟨h.remains.trans hw, hs, hd, h.func, rfl, h.frameTop, h.frames, ?_, ?_, fun i hi => ?_,
    ?_⟩
  · rw [Vm.replace, htop, hlen]
  · rw [Vm.replace, htop, ← hlen]
    exact hroom
  · rw [Vm.replace, htop]
    exact (overwrite_of_lt hi).trans (h.below i hi)
  · rw [Vm.replace, htop, window, hlen, ← List.length_reverse, slice_overwrite]
    exact hvs

/-- What the instruction takes are the values on top. -/
theorem Yields.topValues (h : s.Yields env U pc γ ys s') :
    s'.topValues ys.length = (s'.window s.stackTop ys.length).reverse := by
  rw [Vm.topValues, h.top, Nat.add_sub_cancel]

end Vm

namespace Active

theorem yields (ha : Active env U F ρ γ s) (h : s.Yields env U pc γ' xs s') :
    Active env U F ρ γ' s' := by
  have hbase := h.base ha.running
  have hheight := ha.height
  have htop := h.top
  refine ⟨h.func ▸ ha.prot, ?_, ha.tame, h.frameTop ▸ ha.running,
    h.frameTop ▸ ha.level, ?_, fun i p hp => ?_,
    fun k u x hu hx => ?_, by omega, h.room, h.strung, h.globals⟩
  · rw [h.func]
    exact ha.constants.remains h.remains
  · rw [hbase, h.below _ (by omega)]
    exact ha.self.remains h.remains
  · have := (List.getElem?_eq_some_iff.mp hp).1
    rw [hbase, h.below _ (by omega)]
    exact (ha.own i p hp).remains h.remains
  · have := (List.getElem?_eq_some_iff.mp hu).1
    rw [hbase, h.below _ (by omega)]
    exact (ha.ups k u x hu hx).remains h.remains

theorem refl (ha : Active env U F ρ γ s) : s.Yields env U s.pc γ [] s :=
  .refl ha.strung ha.globals ha.room

theorem here (ha : Active env U F ρ γ s) : Tame U F := ha.tame.root

/-- The instruction that is generated is the one that is fetched. -/
theorem fetch (ha : Active env U F ρ γ s) {i : Instr} (hi : F.instructions[s.pc]? = some i) :
    ¬ s.Halted ∧ s.fetch = .ok (i.op, i.a, i.b) := by
  have hinst : s.func.prot.inst[s.pc]? = some (asInst i) := by
    rw [ha.prot, inst_asProto, List.getElem?_map, hi]
    rfl
  obtain ⟨hop, hargs, hb⟩ := sameInst_asInst.mpr (ha.here.fits.inst i (List.mem_of_getElem? hi))
  refine ⟨fun hhalt => ?_, ?_⟩
  · exact absurd (List.getElem?_eq_some_iff.mp hinst).1 (Nat.not_lt.mpr hhalt)
  · rw [Vm.fetch, hinst, Outcome.ofOption_some, Outcome.ok_bind, hop, hargs, hb]
    rfl

/-! ## Turns -/

section Turns

variable {α : Type} {h : Host} {o : Outcome α} {P : α → Vm → Prop} {i : Instr}

/-- One turn, in a state with room for it. -/
theorem follows (ha : Active env U F ρ γ s) (hi : F.instructions[s.pc]? = some i)
    (hexec : Roomy s → s.world.Spare s.demand → s.exec h i.op i.a i.b = .raise "Out of memory!"
      ∨ (Vm.loop h).FollowsFrom (Vm.Full h) o P (s.exec h i.op i.a i.b)) :
    (Vm.loop h).Follows (Vm.Full h) o P s := by
  obtain ⟨hno, hfetch⟩ := ha.fetch hi
  have hstep : s.step h = s.exec h i.op i.a i.b := by
    rw [Vm.step, hfetch]
    rfl
  by_cases hroom : Roomy s
  · by_cases hspare : s.world.Spare s.demand
    · rcases hexec hroom hspare with hmem | hfrom
      · exact .full (Or.inr (Or.inr (hstep.trans hmem)))
      · refine .of_step hno ?_
        change (Vm.loop h).FollowsFrom _ _ _ (s.step h)
        rwa [hstep]
    · exact .full (Or.inr (Or.inl hspare))
  · exact .full (Or.inl hroom)

/-- An instruction that stays in the function and takes the values on top. -/
theorem follows_local (ha : Active env U F ρ γ s') (hy : s.Yields env U s'.pc γ ys s')
    (hi : F.instructions[s'.pc]? = some i) (hop : i.op.IsLocal)
    (heff : (i.op.effect i.a).1 = ys.length)
    (hlocal : Roomy s' → s'.world.Spare s'.demand → ∀ vs, RepAll env U s'.world ys vs →
      (Vm.loop h).FollowsFrom (Vm.Full h) o P (s'.replace ys.length <$>
        localOp h s'.view s'.world s'.func s'.pc i.op i.a i.b vs.reverse)) :
    (Vm.loop h).Follows (Vm.Full h) o P s' := by
  refine ha.follows hi fun hroom hspare => Or.inr ?_
  have hn : (i.op.effect i.a).1 ≤ s'.stackTop := by
    have := hy.top
    omega
  rw [Vm.exec_local h hop ha.running hn fun hlt =>
    hroom.push _ _ _ (ha.fetch hi).2 hlt, heff, hy.topValues]
  exact hlocal hroom hspare _ hy.values

/-- An instruction that puts one value in the place of those it takes. -/
theorem puts {x : Outcome SVal} {v : List Value → Outcome Value}
    (ha : Active env U F ρ γ s') (hy : s.Yields env U s'.pc γ ys s')
    (hi : F.instructions[s'.pc]? = some i) (hop : i.op.IsLocal)
    (heff : i.op.effect i.a = (ys.length, 1))
    (hput : ∀ vs, RepAll env U s'.world ys vs →
      localOp h s'.view s'.world s'.func s'.pc i.op i.a i.b vs.reverse
        = (do pure (s'.world, [← v vs], s'.pc + 1)))
    (hrel : ∀ vs, RepAll env U s'.world ys vs → x ≠ .fault →
      Outcome.Rel (Rep env U s'.world) x (v vs)) :
    (Vm.loop h).Follows (Vm.Full h) (say x γ)
      (fun r s'' => s.Yields env U (s'.pc + 1) r.2 [r.1] s'') s' := by
  refine ha.follows_local hy hi hop (by rw [heff]) fun hroom _ vs hvs => ?_
  have htop : s.stackTop + 1 ≤ stackSize := by
    have := hy.top
    have := hy.room
    have := hroom.push _ _ _ (ha.fetch hi).2
    rw [heff] at this
    dsimp only at this
    omega
  have hmap : (s'.replace ys.length <$> (do pure (s'.world, [← v vs], s'.pc + 1)))
      = (fun u => s'.replace ys.length (s'.world, [u], s'.pc + 1)) <$> v vs := by
    cases v vs <;> rfl
  rw [hput vs hvs, hmap]
  have hfrom : (Vm.loop h).FollowsFrom (Vm.Full h) x
      (fun a s'' => s.Yields env U (s'.pc + 1) γ [a] s'')
      ((fun u => s'.replace ys.length (s'.world, [u], s'.pc + 1)) <$> v vs) :=
    .of_rel (hrel vs hvs) fun a u _ hau =>
      hy.replace [u] .rfl ha.strung ha.globals (.cons hau .nil) htop
  exact hfrom.bind fun a s'' _ hP => .pure hP

end Turns

end Active

end States

end Saurus
