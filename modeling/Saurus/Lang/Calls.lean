import Saurus.Lang.Emit

/-!
# Calls

A call of a function that stands for a closure runs the body of the closure,
in a frame that binds its parameters and keeps the caller as it was
(`Vm.Enters`), and what comes back is the value of the body. Natives and
vectors answer at once, and what is no function raises. So a call, or a tail
call, does what `apply` says, given that expressions do what the evaluator
says (`Simulates`).
-/

namespace Saurus

open Basis Basis.Codec

/-- The code of every expression does what `ev` says of it. -/
def Simulates (d : Dialect) (env : GenEnv) (U : Set (List Byte)) (ev : Eval) : Prop :=
  ∀ depth F ρ e tail quoted,
    Finishes d env U F ρ tail [] (gen env depth ρ.ctx e tail quoted) (ev ρ e tail quoted)

section Bodies

variable {d : Dialect} {env : GenEnv} {U : Set (List Byte)} {F : Func} {ρ : Env} {γ : Globals}
  {ev : Eval} {s s' s'' t : Vm} {x f : SVal} {args : List SVal} {pc ret : Nat}

/-! ## The body of a function -/

/-- Values of forms that are not the last are dropped. -/
theorem finishes_genBody (hev : Simulates d env U ev) (depth : Nat) : ∀ es : List Sexp,
    Finishes d env U F ρ true [] (genBody (gen env depth) ρ.ctx es) (evalBody ev ρ es)
  | [] => .unsaid
  | [e] => hev depth F ρ e true false
  | e :: e' :: es => by
      have hfirst := (hev depth F ρ e false false).stays rfl
      have hrest : ∀ y : SVal, Finishes d env U F ρ true [y]
          (genInst { op := .pop, a := 1 } none >>= fun _ =>
          genBody (gen env depth) ρ.ctx (e' :: es))
          (pure () >>= fun _ => evalBody ev ρ (e' :: es)) := fun y =>
        (computes_pop y none).finish (onward_genInst _ _)
          (fun _ _ _ => finishes_genBody hev depth (e' :: es))
          fun _ => onward_genBody (onward_gen env depth ρ.ctx) (e' :: es)
      exact hfirst.finish (onward_gen env depth ρ.ctx e false false) (fun _ y _ => hrest y) fun _ =>
        (onward_genInst _ _).bind fun _ => onward_genBody (onward_gen env depth ρ.ctx) (e' :: es)

/-- `OP_RETURN` gives the value on top back. -/
theorem follows_return (ha : Active env U F ρ γ s) {γ' : Globals}
    (hy : s.Yields env U s'.pc γ' [x] s') (hi : F.instructions[s'.pc]? = some { op := .return }) :
    (Vm.loop d.host).Follows (Vm.Full d.host) (.ok (x, γ'))
      (fun r s'' => s.HandsBack env U r.2 r.1 s'') s' := by
  have ha' := ha.yields hy
  refine ha'.follows hi fun _ _ => Or.inr ?_
  have hheight := ha.height
  have htop := hy.top
  have hroom := hy.room
  rw [List.length_singleton] at htop
  have hframe : s'.frames (s'.frameTop - 1) = s.frames (s.frameTop - 1) := by
    rw [hy.frameTop, hy.frames _ (by have := ha.running; omega)]
  have hbase : (s.frames (s.frameTop - 1)).stackTop = s.base := rfl
  obtain ⟨v, _, hv, hnil, hwin⟩ := List.forall₂_cons_left_iff.mp hy.values
  obtain rfl := List.forall₂_nil_left_iff.mp hnil
  have hval : s'.stack (s'.stackTop - 1) = v := by
    rw [htop, Nat.add_sub_cancel]
    exact (List.cons_eq_cons.mp hwin).1
  have hexec : s'.exec d.host .return 0 0 = .ok { s' with
      stack := Function.update s'.stack s.base v
      stackTop := s.base + 1
      frameTop := s'.frameTop - 1
      func := (s.frames (s.frameTop - 1)).func
      pc := (s.frames (s.frameTop - 1)).retAddr } := by
    rw [Vm.exec, Vm.ret, Vm.frame_ok ha'.running, Outcome.ok_bind, Vm.stk_ok (by omega),
      Outcome.ok_bind, hval, hframe, hbase, decide_eq_true (by omega)]
    rfl
  change (Vm.loop d.host).FollowsFrom _ _ _ (s'.exec d.host .return 0 0)
  rw [hexec]
  refine .pure ⟨hy.remains, hy.strung, hy.globals, ?_, v, ⟨rfl, rfl, Function.update_self ..,
    fun i hi => ?_, congrArg (· - 1) hy.frameTop, fun j hj => hy.frames j (by omega), rfl, rfl⟩, hv⟩
  · change s.base + 1 ≤ stackSize
    omega
  · have hlt : i < s.base := hi
    exact (Function.update_of_ne (Nat.ne_of_lt hlt) ..).trans (hy.below i (by omega))

/-- A function that begins comes back with the value of its body. -/
theorem follows_function (hev : Simulates d env U ev) {depth : Nat} {st st' : GenState}
    {body : List Sexp} (hgen : genBody (gen env depth) ρ.ctx body { st with func := {} }
      = .ok ((), st')) (ha : Active env U st'.function ρ γ s) (hpc : s.pc = 0) :
    (Vm.loop d.host).Follows (Vm.Full d.host) (evalBody ev ρ body γ)
      (fun r s' => s.HandsBack env U r.2 r.1 s') s := by
  have hplaced : st'.func.PlacedIn 0 st'.function :=
    FuncTable.placedIn_code _ _ _
  have hrefl := ha.refl
  rw [hpc] at hrefl
  have hbody := finishes_genBody hev depth body _ _ _ _ _ _ _ hgen hplaced ha hrefl
  have hreturn : st'.function.instructions[st'.pos]? = some { op := .return } :=
    List.getElem?_concat_length
  refine hbody.tail fun r s' _ hr => ?_
  rcases hr with hy | ⟨-, -, hback⟩
  · have hret := hreturn
    have hend := hy.pc
    rw [← hend] at hy hret
    exact follows_return ha hy hret
  · exact .pure hback

/-! ## Entering and coming back -/

namespace Vm

/-- A function has been entered from `t`, to come back to `ret`. -/
structure Enters (t : Vm) (ret : Nat) (s : Vm) : Prop where
  remains : t.world.Remains s.world
  running : 0 < s.frameTop
  frameTop : s.frameTop - 1 = t.frameTop
  frame : s.frames t.frameTop = ⟨t.func, t.stackTop, ret⟩
  frames : ∀ k < t.frameTop, s.frames k = t.frames k
  below : ∀ i < t.stackTop, s.stack i = t.stack i

/-- What comes back from a function was put on the stack of the caller. -/
theorem Enters.yields (h : t.Enters ret s) (hback : s.HandsBack env U γ x s') :
    t.Yields env U ret γ [x] s' := by
  obtain ⟨v, hret, hrep⟩ := hback.returned
  rw [h.frameTop, h.frame] at hret
  refine ⟨h.remains.trans hback.remains, hback.strung, hback.globals, hret.func, hret.pc,
    hret.frameTop.trans h.frameTop, fun k hk => ?_, hret.stackTop, hback.room, fun i hi => ?_, ?_⟩
  · exact (hret.frames k (h.frameTop ▸ hk)).trans (h.frames k hk)
  · exact (hret.below i hi).trans (h.below i hi)
  · refine .cons ?_ .nil
    change Rep env U s'.world x (s'.stack t.stackTop)
    rwa [hret.value]

/-- The callee and its arguments on top of the stack. -/
theorem Yields.callee (h : t.Yields env U pc γ (f :: args) s) :
    s.stackTop - (args.length + 1) = t.stackTop
      ∧ Rep env U s.world f (s.stack t.stackTop)
      ∧ RepAll env U s.world args (s.window (t.stackTop + 1) args.length) := by
  have htop := h.top
  have hvalues := h.values
  rw [List.length_cons] at htop hvalues
  rw [window, slice_succ] at hvalues
  obtain ⟨_, _, hf, hargs, heq⟩ := List.forall₂_cons_left_iff.mp hvalues
  obtain ⟨rfl, rfl⟩ := List.cons_eq_cons.mp heq
  exact ⟨by omega, hf, hargs⟩

/-- `OP_CALL` on a function with room for it. -/
theorem callClosure_ok {tmp a : Nat} {fv : Value} {fn : FunctionObj} {w : World}
    {vs : List Value} (hroom : CalleeRoom s tmp a) (hfv : s.stack tmp = fv)
    (ht : fv.type = .function) (hobj : s.world.object fv.addr = .ok (.function fn))
    (henter : enterArgs s.world fn (s.window (tmp + 1) a) = .ok (w, vs)) :
    s.frameTop < maxCalls ∧ tmp + 1 + vs.length + fn.upvalues.length ≤ stackSize
      ∧ s.callClosure tmp a ret fv = .ok { s with
          world := w
          stack := overwrite s.stack (tmp + 1) (vs ++ fn.upvalues)
          stackTop := tmp + 1 + vs.length + fn.upvalues.length
          frames := Function.update s.frames s.frameTop ⟨s.func, tmp, ret⟩
          frameTop := s.frameTop + 1
          func := fn
          pc := 0 } := by
  obtain ⟨hframes, hfits⟩ := hroom (hfv ▸ ht)
  have hfn : functionAt s.world fv = .ok fn := by
    rw [functionAt, hobj]
    rfl
  have hlen := enterArgs_length henter
  rw [window, length_slice] at hlen
  have hroom' := hfits fn (hfv ▸ hfn)
  rw [← hlen] at hroom'
  refine ⟨hframes, hroom', ?_⟩
  have hpush : 0 ≤ fn.narg ∨ tmp + 1 < stackSize := by
    by_cases hneg : fn.narg < 0
    · rw [if_pos hneg] at hlen
      exact Or.inr (by omega)
    · exact Or.inl (by omega)
  rw [callClosure, decide_eq_true hframes, Outcome.require_true, Outcome.ok_bind, hfn,
    Outcome.ok_bind, henter, Outcome.ok_bind]
  dsimp only
  rw [decide_eq_true hpush, Outcome.check_true, Outcome.ok_bind, decide_eq_true hroom',
    Outcome.require_true, Outcome.ok_bind]
  rfl

end Vm

/-- The callee runs with its parameters bound. -/
theorem active_entered {lables : List Atom} {numArgs : Int} {body : List Sexp}
    {outer : List Bindings} {fn : FunctionObj} {w : World} {vs : List Value} {own : Bindings}
    {n : Nat} {u : Vm} (hy : t.Yields env U pc γ (f :: args) s)
    (hcomp : Compiled env U s.world lables numArgs body outer F fn)
    (hups : ∀ (k : Nat) u x y, F.up[k]? = some u → upvalueIn outer u = some x →
      fn.upvalues[k]? = some y → Rep env U s.world x y)
    (hw : s.world.GoesOn U w n) (hvs : RepAll env U w (own.map Prod.snd) vs)
    (hlevel : s.frameTop < maxCalls)
    (hroom : t.stackTop + 1 + vs.length + fn.upvalues.length ≤ stackSize)
    (hu : u = { s with
      world := w
      stack := overwrite s.stack (t.stackTop + 1) (vs ++ fn.upvalues)
      stackTop := t.stackTop + 1 + vs.length + fn.upvalues.length
      frames := Function.update s.frames s.frameTop ⟨s.func, t.stackTop, ret⟩
      frameTop := s.frameTop + 1
      func := fn
      pc := 0 }) :
    Active env U F ⟨f, own, outer⟩ γ u ∧ t.Enters ret u := by
  subst hu
  obtain ⟨-, hf, -⟩ := hy.callee
  have hbase : Vm.base { s with
      world := w
      stack := overwrite s.stack (t.stackTop + 1) (vs ++ fn.upvalues)
      stackTop := t.stackTop + 1 + vs.length + fn.upvalues.length
      frames := Function.update s.frames s.frameTop ⟨s.func, t.stackTop, ret⟩
      frameTop := s.frameTop + 1
      func := fn
      pc := 0 } = t.stackTop := by
    rw [Vm.base]
    dsimp only
    rw [Nat.add_sub_cancel, Function.update_self]
  have hown : own.length = vs.length := by rw [← hvs.length_eq, List.length_map]
  have hslot : ∀ (i : Nat) v, (vs ++ fn.upvalues)[i]? = some v →
      overwrite s.stack (t.stackTop + 1) (vs ++ fn.upvalues) (t.stackTop + 1 + i) = v := by
    intro i v hv
    rw [overwrite, if_pos (by omega), Nat.add_sub_cancel_left, hv]
    rfl
  constructor
  · refine ⟨hcomp.prot, hcomp.constants.remains hw.remains, hcomp.tame, Nat.succ_pos _, hlevel,
      ?_, fun i p hp => ?_, fun k u x hu hx => ?_, ?_, hroom, hw.strung,
      hy.globals.goesOn hy.strung hw⟩
    · rw [hbase]
      dsimp only
      rw [overwrite_of_lt (by omega)]
      exact hf.remains hw.remains
    · obtain ⟨hi, rfl⟩ := List.getElem?_eq_some_iff.mp hp
      rw [hbase]
      dsimp only
      have hv : i < vs.length := hown ▸ hi
      rw [hslot i vs[i] (by rw [List.getElem?_append_left hv, List.getElem?_eq_getElem hv])]
      have hat := (List.forall₂_iff_get.mp hvs).2 i (by rwa [List.length_map]) hv
      rwa [List.get_eq_getElem, List.getElem_map] at hat
    · have hk := (List.getElem?_eq_some_iff.mp hu).1
      rw [← hcomp.upvalues] at hk
      rw [hbase]
      dsimp only
      rw [Nat.add_assoc (t.stackTop + 1), hown,
        hslot (vs.length + k) fn.upvalues[k] (by
          rw [List.getElem?_append_right (Nat.le_add_right ..), Nat.add_sub_cancel_left,
            List.getElem?_eq_getElem hk])]
      exact (hups k u x _ hu hx (List.getElem?_eq_getElem hk)).remains hw.remains
    · rw [hbase]
      dsimp only
      rw [hown, hcomp.upvalues]
  · refine ⟨hy.remains.trans hw.remains, Nat.succ_pos _, ?_, ?_, fun k hk => ?_, fun i hi => ?_⟩
    · exact (Nat.add_sub_cancel ..).trans hy.frameTop
    · dsimp only
      rw [← hy.frameTop, Function.update_self, hy.func]
    · dsimp only
      rw [Function.update_of_ne (by rw [hy.frameTop]; omega), hy.frames k hk]
    · dsimp only
      rw [overwrite_of_lt (by omega), hy.below i hi]

/-! ## Calls -/

/-- A callee that is no function of the program answers in its slot. -/
theorem yields_answer (hy : t.Yields env U pc γ (f :: args) s) {w : World} {n : Nat}
    (hw : s.world.GoesOn U w n) {v : Value} (hx : Rep env U w x v) {stack : Nat → Value}
    (hbelow : ∀ i < t.stackTop, stack i = s.stack i) (hval : stack t.stackTop = v) :
    t.Yields env U ret γ [x]
      { s with world := w, stack := stack, stackTop := t.stackTop + 1, pc := ret } := by
  have htop := hy.top
  have hroom := hy.room
  rw [List.length_cons] at htop
  refine ⟨hy.remains.trans hw.remains, hw.strung, hy.globals.goesOn hy.strung hw, hy.func, rfl,
    hy.frameTop, hy.frames, rfl, ?_, fun i hi => ?_, ?_⟩
  · change t.stackTop + 1 ≤ stackSize
    omega
  · exact (hbelow i hi).trans (hy.below i hi)
  · refine .cons ?_ .nil
    change Rep env U w x (stack t.stackTop)
    rwa [hval]

theorem vectorIndex_rel {w : World} {xs : List SVal} {us : List Value} {vec : Vec}
    (hvec : VecRepresents vec us) (hlen : xs.length = us.length)
    (hall : ∀ (i : Nat) x u, xs[i]? = some x → us[i]? = some u → Rep env U w x u) (k : Int) :
    Outcome.Rel (Rep env U w)
      (if 0 ≤ k ∧ k < xs.length then Outcome.ofOption xs[k.toNat]?
        else .raise s!"Index is out of bounds: {k}") (vectorIndex vec k) := by
  by_cases hk : 0 ≤ k ∧ k < xs.length
  · have hxs : k.toNat < xs.length := by omega
    have hus : k.toNat < us.length := hlen ▸ hxs
    have hindex := vectorIndex_ok hvec (List.getElem?_eq_getElem hus)
    rw [Int.toNat_of_nonneg hk.1] at hindex
    rw [if_pos hk, hindex, List.getElem?_eq_getElem hxs]
    exact .ok (hall _ _ _ (List.getElem?_eq_getElem hxs) (List.getElem?_eq_getElem hus))
  · obtain ⟨_, _, _, _, hcnt⟩ := hvec
    rw [if_neg hk, vectorIndex, if_neg (by rw [hcnt, ← hlen]; exact hk)]
    exact .raise _

theorem unsaid_from {α : Type} {o : Outcome α} {P : α → Vm → Prop} (ho : o = .fault)
    (y : Outcome Vm) : (Vm.loop d.host).FollowsFrom (Vm.Full d.host) o P y := by
  cases y with
  | ok s => exact .unsaid ho
  | raise msg => exact Or.inr ho
  | fault => exact ho

theorem apply_fixed {lables : List Atom} {numArgs : Int} {body : List Sexp}
    {outer : List Bindings} (h : ¬ numArgs < 0) :
    apply d ev (.closure lables numArgs body outer) args
      = if numArgs = args.length then
          evalBody ev ⟨.closure lables numArgs body outer, lables.zip args, outer⟩ body
        else say (.raise ("Bad number of arguments to function! Expected " ++ toString numArgs
          ++ ", but got " ++ toString args.length ++ ".")) := if_neg h

/-- **Calls** of a closure. -/
theorem follows_closure (hev : Simulates d env U ev) {lables : List Atom}
    {numArgs : Int} {body : List Sexp} {outer : List Bindings} {v : Value} {fn : FunctionObj}
    (hy : t.Yields env U pc γ (.closure lables numArgs body outer :: args) s)
    (hroom : CalleeRoom s t.stackTop args.length) (hv : s.stack t.stackTop = v)
    (ht : v.type = .function) (hobj : s.world.object v.addr = .ok (.function fn))
    (hcomp : Compiled env U s.world lables numArgs body outer F fn)
    (hups : ∀ (k : Nat) u x y, F.up[k]? = some u → upvalueIn outer u = some x →
      fn.upvalues[k]? = some y → Rep env U s.world x y) :
    s.callClosure t.stackTop args.length ret v = .raise "Out of memory!" ∨
      (Vm.loop d.host).FollowsFrom (Vm.Full d.host)
        (apply d ev (.closure lables numArgs body outer) args γ)
        (fun r s' => t.Yields env U ret r.2 [r.1] s')
        (s.callClosure t.stackTop args.length ret v) := by
  obtain ⟨-, -, hargs⟩ := hy.callee
  have hcounts := hcomp.counts
  obtain ⟨depth, st, st', hgen, rfl⟩ := hcomp.generated
  -- once the arguments are there, the body runs
  have hrun : ∀ {own : Bindings} {w : World} {vs : List Value} {n : Nat},
      own.map Prod.fst = lables → RepAll env U w (own.map Prod.snd) vs → s.world.GoesOn U w n →
      enterArgs s.world fn (s.window (t.stackTop + 1) args.length) = .ok (w, vs) →
      (Vm.loop d.host).FollowsFrom (Vm.Full d.host)
        (evalBody ev ⟨.closure lables numArgs body outer, own, outer⟩ body γ)
        (fun r s' => t.Yields env U ret r.2 [r.1] s')
        (s.callClosure t.stackTop args.length ret v) := by
    intro own w vs n hown hvs hw henter
    obtain ⟨hlevel, hfits, hok⟩ := Vm.callClosure_ok hroom hv ht hobj henter
    rw [hok]
    obtain ⟨hact, henters⟩ := active_entered hy hcomp hups hw hvs hlevel hfits rfl
    have hctx : (⟨⟨lables, false⟩, scopesOf outer⟩ : Ctx)
        = Env.ctx ⟨.closure lables numArgs body outer, own, outer⟩ := by
      rw [Env.ctx, hown, List.isEmpty_eq_false_iff.mpr hcomp.inner]
    rw [hctx] at hgen
    exact (follows_function hev hgen hact rfl).imp fun r s' _ hback => henters.yields hback
  by_cases hneg : numArgs < 0
  · rw [if_pos hneg] at hcounts
    obtain ⟨lable, rfl⟩ := List.length_eq_one_iff.mp hcounts
    have happly : apply d ev (.closure [lable] numArgs body outer) args
        = evalBody ev ⟨.closure [lable] numArgs body outer, [(lable, .vector args)], outer⟩
          body := by
      rw [apply, if_pos hneg]
    have hlen : args.length < 2 ^ 31 := by
      have htop := hy.top
      have hle := hy.room
      have hsize : stackSize ≤ 2 ^ 31 := by decide
      rw [List.length_cons] at htop
      omega
    rcases collectVarg_collects hy.strung (s.window (t.stackTop + 1) args.length)
      (by rwa [Vm.window, length_slice]) with hmem | ⟨w, u, vec, hcollect, hw, hu, hvec, hrepr⟩
    · -- no memory for the vector
      refine Or.inl ?_
      obtain ⟨hframes, -⟩ := hroom (hv ▸ ht)
      rw [Vm.callClosure, decide_eq_true hframes, Outcome.require_true, Outcome.ok_bind,
        functionAt, hobj, Outcome.ok_bind]
      change (enterArgs s.world fn _ >>= _) = _
      rw [enterArgs, hcomp.narg, if_pos hneg, hmem]
      rfl
    · refine Or.inr ?_
      rw [happly]
      refine hrun rfl (.cons ((hargs.remains hw.remains).vector hu hvec hrepr) .nil) hw ?_
      rw [enterArgs, hcomp.narg, if_pos hneg, hcollect]
      rfl
  · rw [if_neg hneg] at hcounts
    by_cases hnum : numArgs = args.length
    · refine Or.inr ?_
      have hlen : lables.length = args.length := by omega
      rw [apply_fixed hneg, if_pos hnum]
      have hvs : RepAll env U s.world ((lables.zip args).map Prod.snd)
          (s.window (t.stackTop + 1) args.length) := by
        rw [List.map_snd_zip (Nat.le_of_eq hlen.symm)]
        exact hargs
      refine hrun (List.map_fst_zip (Nat.le_of_eq hlen)) hvs (.rfl hy.strung) ?_
      rw [enterArgs, hcomp.narg, if_neg hneg, Vm.window, length_slice, decide_eq_true hnum]
      rfl
    · -- the numbers of arguments differ
      obtain ⟨hframes, -⟩ := hroom (hv ▸ ht)
      have hraise : s.callClosure t.stackTop args.length ret v
          = .raise ("Bad number of arguments to function! Expected " ++ toString numArgs
            ++ ", but got " ++ toString args.length ++ ".") := by
        rw [Vm.callClosure, decide_eq_true hframes, Outcome.require_true, Outcome.ok_bind,
          functionAt, hobj, Outcome.ok_bind]
        change (enterArgs s.world fn _ >>= _) = _
        rw [enterArgs, hcomp.narg, if_neg hneg, Vm.window, length_slice, decide_eq_false hnum]
        rfl
      refine Or.inr ?_
      rw [hraise, apply_fixed hneg, if_neg hnum]
      exact Or.inl rfl

/-- The state after a native in the slot `tmp` has replied. -/
def Vm.replied (s : Vm) (tmp ret : Nat) (r : Reply) : Vm :=
  { s with
    world := r.world
    stack := fun i => if i < tmp then s.stack i
      else if i = tmp then r.ret.getD ⟨.nil, (r.left 0).obj⟩ else r.left (i - tmp)
    stackTop := tmp + 1
    pc := ret }

/-- **Calls** of a native. -/
theorem follows_native (hset : Setting d env U) {p : BitVec 64}
    (hy : t.Yields env U pc γ (.native p :: args) s)
    (hargs : RepAll env U s.world args (s.window (t.stackTop + 1) args.length))
    (ht : (s.stack t.stackTop).type = .nativefunc) (hobj : (s.stack t.stackTop).obj = p) :
    s.callNative d.host t.stackTop args.length ret (s.stack t.stackTop) = .raise "Out of memory!" ∨
      (Vm.loop d.host).FollowsFrom (Vm.Full d.host) (apply d ev (.native p) args γ)
        (fun r s' => t.Yields env U ret r.2 [r.1] s')
        (s.callNative d.host t.stackTop args.length ret (s.stack t.stackTop)) := by
  have hanswer : s.callNative d.host t.stackTop args.length ret (s.stack t.stackTop)
      = s.replied t.stackTop ret <$> d.host.native p s.world
        (s.stack t.stackTop :: s.window (t.stackTop + 1) args.length) := by
    rw [Vm.callNative, hobj, show s.window t.stackTop (args.length + 1)
      = s.stack t.stackTop :: s.window (t.stackTop + 1) args.length from slice_succ ..]
    cases d.host.native p s.world
      (s.stack t.stackTop :: s.window (t.stackTop + 1) args.length) <;> rfl
  rw [hanswer]
  by_cases hne : d.native p args = .fault
  · refine Or.inr (unsaid_from ?_ _)
    change (d.native p args >>= _) = _
    rw [hne, Outcome.fault_bind]
  · rcases hset.natives p args s.world _ _ hy.strung hargs ht hobj hne with hmem | hrel
    · exact Or.inl (by rw [hmem]; rfl)
    · refine Or.inr ?_
      have hfrom : (Vm.loop d.host).FollowsFrom (Vm.Full d.host) (d.native p args)
          (fun x s' => t.Yields env U ret γ [x] s') (s.replied t.stackTop ret <$> d.host.native p
            s.world (s.stack t.stackTop :: s.window (t.stackTop + 1) args.length)) :=
        .of_rel (fun _ => hrel) fun x r _ hr => yields_answer hy hr.1.choose_spec hr.2
          (fun i hi => if_pos hi) ((if_neg (Nat.lt_irrefl t.stackTop)).trans (if_pos rfl))
      exact hfrom.bind fun x s' _ hP => .pure hP

/-- **Calls** of whatever value. -/
theorem follows_call (hset : Setting d env U) (hev : Simulates d env U ev)
    (hy : t.Yields env U pc γ (f :: args) s) (hroom : CalleeRoom s t.stackTop args.length) :
    Vm.call d.host s args.length ret = .raise "Out of memory!" ∨
      (Vm.loop d.host).FollowsFrom (Vm.Full d.host) (apply d ev f args γ)
        (fun r s' => t.Yields env U ret r.2 [r.1] s') (Vm.call d.host s args.length ret) := by
  obtain ⟨htmp, hf, hargs⟩ := hy.callee
  have htop := hy.top
  rw [List.length_cons] at htop
  rw [Vm.call, decide_eq_true (by omega), Outcome.require_true, Outcome.ok_bind, htmp]
  dsimp only
  have hty := hf.type_eq
  cases hf with
  | closure ht hobj hcomp hups =>
      rw [ht]
      exact follows_closure hev hy hroom rfl ht hobj hcomp hups
  | @native p _ ht hobj =>
      rw [ht]
      exact follows_native hset hy hargs ht hobj
  | @vector xs us vec _ ht hobj hvec hlen hall =>
      rw [ht]
      have hanswer : ∀ {x : Outcome SVal} {y : Outcome Value},
          (x ≠ .fault → Outcome.Rel (Rep env U s.world) x y) →
          (Vm.loop d.host).FollowsFrom (Vm.Full d.host) (say x γ)
            (fun r s' => t.Yields env U ret r.2 [r.1] s')
            (do pure (s.callData t.stackTop ret (← y))) := by
        intro x y hrel
        have hfrom : (Vm.loop d.host).FollowsFrom (Vm.Full d.host) x
            (fun x s' => t.Yields env U ret γ [x] s')
            ((fun v => s.callData t.stackTop ret v) <$> y) :=
          .of_rel hrel fun x v _ hx => yields_answer hy (.rfl hy.strung) hx
            (fun i hi => Function.update_of_ne (Nat.ne_of_lt hi) ..) (Function.update_self ..)
        have hmap : (do pure (s.callData t.stackTop ret (← y)) : Outcome Vm)
            = (fun v => s.callData t.stackTop ret v) <$> y := by
          cases y <;> rfl
        rw [hmap]
        exact hfrom.bind fun x s' _ hP => .pure hP
      refine Or.inr ?_
      rcases args with _ | ⟨i, _ | ⟨j, rest⟩⟩
      · exact Or.inl rfl
      · obtain ⟨_, _, hi, hnil, heq⟩ := List.forall₂_cons_left_iff.mp hargs
        obtain rfl := List.forall₂_nil_left_iff.mp hnil
        obtain ⟨rfl, -⟩ := List.cons_eq_cons.mp heq
        refine hanswer fun hne => hi.number_bind hne fun n _ hn _ => ?_
        rw [hobj, Outcome.ok_bind, hn]
        exact .bind .rfl fun k _ hk => hk ▸ vectorIndex_rel hvec hlen hall k
      · change (Vm.loop d.host).FollowsFrom _ _ _ (callVector d.host s.world _
          (s.window (t.stackTop + 1) (rest.length + 1 + 1)) >>= _)
        rw [Vm.window, slice_succ, slice_succ]
        exact Or.inl rfl
  | program | other => exact Or.inr (unsaid_from rfl _)
  | _ =>
      rw [hty]
      exact Or.inr (Or.inl rfl)

/-! ## In place of a call, a tail call -/

/-- The caller of a function, for which a tail call is made. -/
def Vm.awaiting (s : Vm) : Vm :=
  { s with
    stackTop := s.base
    frameTop := s.frameTop - 1
    func := (s.frames (s.frameTop - 1)).func }

/-- What a tail call leaves to its caller, the function has handed back. -/
theorem Vm.Yields.handsBack
    (h : s.awaiting.Yields env U (s.frames (s.frameTop - 1)).retAddr γ [x] s') :
    s.HandsBack env U γ x s' := by
  obtain ⟨v, _, hv, hnil, hwin⟩ := List.forall₂_cons_left_iff.mp h.values
  obtain rfl := List.forall₂_nil_left_iff.mp hnil
  exact ⟨h.remains, h.strung, h.globals, h.room, v, ⟨rfl, h.top, (List.cons_eq_cons.mp hwin).1,
    h.below, h.frameTop, h.frames, h.func, h.pc⟩, hv⟩

/-- The callee and its arguments take the place of the function. -/
theorem yields_dropFrame (ha : Active env U F ρ γ s) {γ' : Globals}
    (hy : s.Yields env U pc γ' (f :: args) s') :
    s.awaiting.Yields env U s'.pc γ' (f :: args)
      (s'.dropFrame (s.frames (s.frameTop - 1)) args.length) := by
  have hheight := ha.height
  have htop := hy.top
  have hroom := hy.room
  rw [List.length_cons] at htop
  have hfrom : s'.stackTop - (args.length + 1) = s.stackTop := by omega
  refine ⟨hy.remains, hy.strung, hy.globals, rfl, rfl, congrArg (· - 1) hy.frameTop,
    fun k hk => hy.frames k ?_, rfl, ?_, fun i hi => ?_, ?_⟩
  · exact Nat.lt_of_lt_of_le hk (Nat.sub_le ..)
  · change s.base + (args.length + 1) ≤ stackSize
    omega
  · have hlt : i < s.base := hi
    exact (overwrite_of_lt hlt).trans (hy.below i (by omega))
  · change RepAll env U s'.world (f :: args) (slice (overwrite s'.stack s.base
      (s'.window (s'.stackTop - (args.length + 1)) (args.length + 1))) s.base (args.length + 1))
    have hmoved := slice_overwrite s'.stack s.base (s'.window s.stackTop (args.length + 1))
    rw [Vm.window, length_slice] at hmoved
    rw [hfrom, Vm.window, hmoved]
    exact hy.values

/-- `call_or_tail` makes a tail call where the dialect has one. -/
theorem callOrTail_op (hset : Setting d env U) (tail : Bool) (line : Option Nat) (narg : Nat) :
    callOrTail env ρ.ctx tail line narg
      = genInst { op := if tail && d.tailCalls ρ then .tcall else .call, a := narg } line := by
  have htop : (ρ.ctx.parents.head?.any Scope.topfunc) = (ρ.outer.length == 1) := by
    rw [show ρ.ctx.parents = scopesOf ρ.outer from rfl]
    cases ρ.outer with
    | nil => rfl
    | cons scope outer => cases outer <;> rfl
  rw [callOrTail, htop, hset.optTail, Dialect.tailCalls, Bool.and_assoc]
  rfl

/-- **Calls and tail calls** do what `apply` says. -/
theorem finishes_callOrTail (hset : Setting d env U) (hev : Simulates d env U ev) (f : SVal)
    (args : List SVal) (tail : Bool) (line : Option Nat) :
    Finishes d env U F ρ tail (f :: args) (callOrTail env ρ.ctx tail line args.length)
      (apply d ev f args) := by
  intro st b st' γ₀ γ s s' hm hplaced ha hy
  rw [callOrTail_op hset] at hm
  obtain ⟨hi, hpos⟩ := genInst_placed hm hplaced
  have ha' := ha.yields hy
  have hpc := hy.pc
  rw [← hpc] at hi hpos
  have htop := hy.top
  rw [List.length_cons] at htop
  cases htail : tail && d.tailCalls ρ with
  | false =>
      rw [htail, if_neg Bool.false_ne_true] at hi
      refine (ha'.follows hi fun hroom _ => ?_ : (Vm.loop d.host).Follows (Vm.Full d.host) _
        (fun r s'' => s.Yields env U (s'.pc + 1) r.2 [r.1] s'') s').imp fun r s'' _ hr =>
          Or.inl (hpos ▸ hr)
      have hcallee := hroom.call _ _ (by rw [(ha'.fetch hi).2])
      rw [show s'.stackTop - (args.length + 1) = s.stackTop by omega] at hcallee
      exact follows_call hset hev hy hcallee
  | true =>
      rw [htail, if_pos rfl] at hi
      obtain ⟨ht, hcalls⟩ := Bool.and_eq_true_iff.mp htail
      refine (ha'.follows hi fun hroom _ => ?_ : (Vm.loop d.host).Follows (Vm.Full d.host) _
        (fun r s'' => s.HandsBack env U r.2 r.1 s'') s').imp fun r s'' _ hr =>
          Or.inr ⟨ht, hcalls, hr⟩
      have hframe : s'.frame = .ok (s.frames (s.frameTop - 1)) := by
        rw [Vm.frame_ok ha'.running, hy.frameTop, hy.frames _ (by have := ha.running; omega)]
      have hcallee := hroom.tcall _ _ _ (by rw [(ha'.fetch hi).2]) hframe
      have hheight := ha.height
      have hroom' := hy.room
      have hfits : args.length + 1 ≤ s'.stackTop
          ∧ (s.frames (s.frameTop - 1)).stackTop + (args.length + 1) ≤ stackSize := by
        change _ ∧ s.base + (args.length + 1) ≤ stackSize
        omega
      have hexec : s'.exec d.host .tcall args.length 0
          = Vm.call d.host (s'.dropFrame (s.frames (s.frameTop - 1)) args.length) args.length
            (s.frames (s.frameTop - 1)).retAddr := by
        change s'.tcall d.host args.length = _
        rw [Vm.tcall, hframe, Outcome.ok_bind, decide_eq_true hfits, Outcome.require_true,
          Outcome.ok_bind]
      change s'.exec d.host .tcall args.length 0 = _ ∨ (Vm.loop d.host).FollowsFrom _ _ _
        (s'.exec d.host .tcall args.length 0)
      rw [hexec]
      refine (follows_call hset hev (yields_dropFrame ha hy) hcallee).imp id fun hfrom => ?_
      exact hfrom.imp fun r s'' _ hr => hr.handsBack

end Bodies

end Saurus
