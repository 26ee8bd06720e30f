import Saurus.Stored
import Saurus.Vm.Load

/-!
# Equality of nil and booleans

`OP_EQ` and `value_eq` compare the whole payload. For a nil none of it is
written, and for a boolean only the four bytes of `obj.b`; the rest is what
the slot, the local variable or the native's own slot held before. So two
nils, or two booleans with the same `obj.b`, are equal when they were made
over the same bytes, and `Uniform` says that all of them were. A run keeps
that as long as every step that makes such a value does.
-/

namespace Saurus

open Basis Outcome

/-- The bytes of a payload that writing `obj.b` leaves alone. -/
def upper (obj : BitVec 64) : BitVec 64 := obj &&& 0xffffffff00000000#64

/-- A nil has the payload `c`, a boolean `d` in the bytes above `obj.b`. -/
def Uniform (c d : BitVec 64) (v : Value) : Prop :=
  (v.type = .nil → v.obj = c) ∧ (v.type = .boolean → upper v.obj = d)

theorem upper_setObjB (obj : BitVec 64) (b : Bool) : upper (setObjB obj b) = upper obj := by
  have hlow : (if b then 1#64 else 0#64) &&& 0xffffffff00000000#64 = 0#64 := by
    cases b <;> rfl
  unfold upper setObjB
  rw [BitVec.and_or_distrib_right, hlow, BitVec.and_assoc, BitVec.and_self, BitVec.or_zero]

/-- A payload is its two halves. -/
theorem obj_eq_iff {x y : BitVec 64} :
    x = y ↔ upper x = upper y ∧ x.setWidth 32 = y.setWidth 32 := by
  have hmask : ∀ i : Fin 64, 32 ≤ i.val → (0xffffffff00000000#64).getLsbD i = true := by decide
  constructor
  · rintro rfl
    exact ⟨rfl, rfl⟩
  · rintro ⟨hup, hlow⟩
    refine BitVec.eq_of_getLsbD_eq fun i hi => ?_
    by_cases hlt : i < 32
    · have hbit := congrArg (fun z => z.getLsbD i) hlow
      simpa [BitVec.getLsbD_setWidth, hlt] using hbit
    · have hbit := congrArg (fun z => z.getLsbD i) hup
      simpa [upper, BitVec.getLsbD_and, hmask ⟨i, hi⟩ (Nat.le_of_not_lt hlt)] using hbit

variable {c d : BitVec 64}

theorem uniform_lax : Lax (Uniform c d) := fun _ hnil hbool =>
  ⟨fun h => absurd h hnil, fun h => absurd h hbool⟩

theorem uniform_nil : Uniform c d ⟨.nil, c⟩ := ⟨fun _ => rfl, nofun⟩

theorem uniform_boolean {obj : BitVec 64} (h : upper obj = d) (b : Bool) :
    Uniform c d ⟨.boolean, setObjB obj b⟩ := ⟨nofun, fun _ => (upper_setObjB obj b).trans h⟩

/-! ## Equality of such values -/

/-- `OP_EQ` and `value_eq` agree on `x` and `y`, and say `b`. -/
def BothEqual (x y : Value) (b : Bool) : Prop :=
  eqOp x y = .ok (asBoolean x b) ∧ valueEq x y = b

/-- Away from numbers both compare the types and the payloads. -/
theorem bothEqual_of_ne_number {x y : Value} (ht : x.type = y.type) (hn : x.type ≠ .number) :
    BothEqual x y (x.obj == y.obj) := by
  constructor
  · rw [eqOp, if_neg (not_not.mpr ht), if_neg hn]
    rfl
  · rw [valueEq, if_neg (not_not.mpr ht), if_neg fun h => hn h.1]

theorem Uniform.nil_equal {x y : Value} (hx : Uniform c d x) (hy : Uniform c d y)
    (htx : x.type = .nil) (hty : y.type = .nil) : BothEqual x y true := by
  have h := bothEqual_of_ne_number (htx.trans hty.symm) (by rw [htx]; decide)
  rwa [hx.1 htx, hy.1 hty, beq_self_eq_true] at h

theorem Uniform.boolean_equal {x y : Value} (hx : Uniform c d x) (hy : Uniform c d y)
    (htx : x.type = .boolean) (hty : y.type = .boolean) :
    BothEqual x y (x.obj.setWidth 32 == y.obj.setWidth 32) := by
  have h := bothEqual_of_ne_number (htx.trans hty.symm) (by rw [htx]; decide)
  have hobj : (x.obj == y.obj) = (x.obj.setWidth 32 == y.obj.setWidth 32) := by
    rw [Bool.eq_iff_iff, beq_iff_eq, beq_iff_eq, obj_eq_iff, hx.2 htx, hy.2 hty]
    exact and_iff_right rfl
  rwa [hobj] at h

/-! ## What a step writes nil or a boolean over -/

/-- The bytes the constants of a function are made over, from the draw `n`
on. -/
def DrawsAlike (c d : BitVec 64) (junk : Nat → BitVec 64) : Nat → List ProtoConst → Prop
  | _, [] => True
  | n, .true :: cs => upper (junk n) = d ∧ DrawsAlike c d junk (n + 1) cs
  | n, .false :: cs => upper (junk n) = d ∧ DrawsAlike c d junk (n + 1) cs
  | n, .nil :: cs => junk n = c ∧ DrawsAlike c d junk (n + 1) cs
  | n, .string _ :: cs => DrawsAlike c d junk n cs
  | n, .number _ :: cs => DrawsAlike c d junk n cs

/-- A native leaves alike values, and when it returns nothing, `c` in the
slot it was called from. -/
structure ReplyAlike (c d : BitVec 64) (r : Reply) : Prop where
  world : r.world.All (Uniform c d)
  left : ∀ i, Uniform c d (r.left i)
  ret : ∀ v, r.ret = some v → Uniform c d v
  none : r.ret = none → (r.left 0).obj = c

namespace Vm

/-- The native that a call with `a` arguments runs, if it runs one. -/
def NativeAlike (c d : BitVec 64) (h : Host) (s : Vm) (a : Nat) : Prop :=
  ∀ r, h.native (s.stack (s.stackTop - (a + 1))).obj s.world
      (s.window (s.stackTop - (a + 1)) (a + 1)) = .ok r → ReplyAlike c d r

/-- The instruction makes nil and booleans over `c` and `d`. -/
def InstAlike (c d : BitVec 64) (h : Host) (s : Vm) (a : Nat) : Op → Prop
  | .eq | .less | .lequal | .and | .or => upper (s.stack (s.stackTop - 2)).obj = d
  | .not => upper (s.stack (s.stackTop - 1)).obj = d
  | .call => NativeAlike c d h s a
  | .tcall => ∀ frame, s.frame = .ok frame → NativeAlike c d h (s.dropFrame frame a) a
  | .lambda => ∀ prot, s.func.prot.prot[a]? = some prot →
      DrawsAlike c d h.junk s.world.junks prot.constants
  | _ => True

/-- The instruction the loop is at does. -/
def TurnAlike (c d : BitVec 64) (h : Host) (s : Vm) : Prop :=
  ∀ op a b, s.fetch = .ok (op, a, b) → s.InstAlike c d h a op

/-! ## States -/

/-- The property holds of every value the interpreter can come to. -/
structure All (P : Value → Prop) (s : Vm) : Prop where
  world : s.world.All P
  stack : ∀ i, P (s.stack i)
  func : s.func.All P
  frames : ∀ k, (s.frames k).func.All P

variable {P : Value → Prop} {s : Vm}

theorem All.next (h : s.All P) : s.next.All P := ⟨h.world, h.stack, h.func, h.frames⟩

theorem All.jump (h : s.All P) (a : Nat) : (s.jump a).All P :=
  ⟨h.world, h.stack, h.func, h.frames⟩

theorem All.withWorld (h : s.All P) {w : World} (hw : w.All P) :
    All P { s with world := w } := ⟨hw, h.stack, h.func, h.frames⟩

theorem update_all {stack : Nat → Value} (h : ∀ i, P (stack i)) (k : Nat) {v : Value} (hv : P v) :
    ∀ i, P (Function.update stack k v i) := by
  intro i
  by_cases hi : i = k
  · rw [hi, Function.update_self]
    exact hv
  · rw [Function.update_of_ne hi]
    exact h i

theorem overwrite_all {stack : Nat → Value} (h : ∀ i, P (stack i)) (k : Nat) {vs : List Value}
    (hvs : ∀ v ∈ vs, P v) : ∀ i, P (overwrite stack k vs i) := by
  intro i
  unfold overwrite
  split
  · cases hv : vs[i - k]? with
    | none => exact h i
    | some v => exact hvs v (List.mem_of_getElem? hv)
  · exact h i

theorem All.window (h : s.All P) (i n : Nat) : ∀ v ∈ s.window i n, P v := by
  intro v hv
  obtain ⟨j, -, rfl⟩ := List.mem_map.mp hv
  exact h.stack _

theorem All.stk (h : s.All P) (n : Nat) : Ensures (s.stk n) P :=
  .bind fun _ _ => ensures_ok (h.stack _)

theorem All.slot (h : s.All P) (n : Nat) : Ensures (s.slot n) P :=
  .bind fun _ _ => ensures_ok (h.stack _)

theorem All.pushFrom (h : s.All P) {v : Outcome Value} (hv : Ensures v P) :
    Ensures (s.pushFrom v) (All P) :=
  .bind fun _ _ => .bind fun x hx =>
    ensures_ok ⟨h.world, update_all h.stack _ (hv x hx), h.func, h.frames⟩

theorem All.pop (h : s.All P) (n : Nat) : Ensures (s.pop n) (All P) :=
  .bind fun _ _ => ensures_ok ⟨h.world, h.stack, h.func, h.frames⟩

theorem stk_eq {n : Nat} {v : Value} (h : s.stk n = .ok v) : v = s.stack (s.stackTop - n) := by
  obtain ⟨_, -, h⟩ := bind_eq_ok.mp h
  cases h
  rfl

theorem All.binary (h : s.All P) {f : Value → Value → Outcome Value}
    (hf : Ensures (f (s.stack (s.stackTop - 2)) (s.stack (s.stackTop - 1))) P) :
    Ensures (s.binary f) (All P) := by
  refine .bind fun x hx => .bind fun y hy => .bind fun v hv => ensures_ok ?_
  rw [stk_eq hx, stk_eq hy] at hv
  exact ⟨h.world, update_all h.stack _ (hf v hv), h.func, h.frames⟩

theorem All.unary (h : s.All P) {f : Value → Outcome Value}
    (hf : Ensures (f (s.stack (s.stackTop - 1))) P) : Ensures (s.unary f) (All P) := by
  refine .bind fun x hx => .bind fun v hv => ensures_ok ?_
  rw [stk_eq hx] at hv
  exact ⟨h.world, update_all h.stack _ (hf v hv), h.func, h.frames⟩

theorem All.frame (h : s.All P) : Ensures s.frame fun frame => frame.func.All P :=
  .bind fun _ _ => ensures_ok (h.frames _)

end Vm

/-! ## Objects in instructions -/

variable {P : Value → Prop} {w : World}

theorem functionAt_all (h : w.All P) (v : Value) :
    Ensures (functionAt w v) (FunctionObj.All P) := by
  refine .bind fun o ho => ?_
  have hall := h.object _ o ho
  cases o with
  | function f => exact ensures_ok hall
  | _ => exact ensures_fault

theorem callVector_all (host : Host) (h : w.All P) (f : Value) (args : List Value) :
    Ensures (callVector host w f args) P := by
  unfold callVector
  split
  · exact ensures_raise
  · refine .bind fun _ _ => .bind fun o ho => ?_
    have hall := h.object _ o ho
    cases o with
    | vector vec => exact .bind fun i _ => vectorIndex_all hall i
    | _ => exact ensures_fault
  · exact ensures_raise

theorem callMap_all (h : w.All P) (f : Value) (args : List Value) :
    Ensures (callMap w f args) P := by
  unfold callMap
  split
  · exact ensures_raise
  · refine .bind fun o ho => ?_
    have hall := h.object _ o ho
    cases o with
    | map m =>
        refine .bind fun hash _ => .bind fun v hv => .bind fun _ hinv => ensures_ok ?_
        exact (mapGet_all hall _ hash v hv).resolve_left
          (of_decide_eq_true (check_eq_ok.mp hinv))
    | _ => exact ensures_fault
  · exact ensures_raise

theorem globalError_ensures {α : Type} (v : Value) (msg : String) (Q : α → Prop) :
    Ensures (globalError w msg v) Q := by
  refine .bind fun o _ => ?_
  cases o with
  | string hash str => exact ensures_raise
  | _ => exact ensures_fault

theorem getGlobal_all (h : w.All P) (func : FunctionObj) (a : Nat) :
    Ensures (getGlobal w func a) P := by
  refine .bind fun x _ => ?_
  obtain ⟨key, hash⟩ := x
  refine .bind fun m hm => .bind fun v hv => ?_
  split
  · exact globalError_ensures _ _ _
  · rename_i hinv
    exact ensures_ok ((mapGet_all (globalsMap_all h m hm) _ _ v hv).resolve_left hinv)

theorem setGlobal_all (hP : Lax P) (h : w.All P) (func : FunctionObj) (a : Nat)
    {v : Outcome Value} (hv : Ensures v P) : Ensures (setGlobal w func a v) (World.All P) := by
  refine .bind fun x _ => ?_
  obtain ⟨key, hash⟩ := x
  refine .bind fun m _ => .bind fun old _ => ?_
  split
  · exact globalError_ensures _ _ _
  · exact .bind fun x hx => .bind fun w' hw' =>
      updateGlobalRef_all hP (insertGlobal_all h _ _ (hv x hx) w' hw')

theorem enterArgs_all (hP : Lax P) (h : w.All P) (fn : FunctionObj) {args : List Value}
    (hargs : ∀ v ∈ args, P v) :
    Ensures (enterArgs w fn args) fun r => r.1.All P ∧ ∀ v ∈ r.2, P v := by
  unfold enterArgs
  split
  · refine .bind fun r hr => ensures_ok ?_
    obtain ⟨hw, hv⟩ := collectVarg_all hP h hargs r hr
    exact ⟨hw, fun v hmem => List.mem_singleton.mp hmem ▸ hv⟩
  · exact .bind fun _ _ => ensures_ok ⟨h, hargs⟩

/-! ## Constants -/

theorem stringFromDb_junks (hash : BitVec 32) (str : List Byte) :
    Ensures (stringFromDb w hash str) fun r => r.1.junks = w.junks := by
  refine .bind fun v _ => ?_
  split
  · exact ensures_ok rfl
  · refine .bind fun r hr => .bind fun _ _ => ensures_ok ?_
    change r.1.junks = w.junks
    rw [(alloc_ok hr).1]

theorem createValues_alike {junk : Nat → BitVec 64} : ∀ (cs : List ProtoConst) {w : World},
    w.All (Uniform c d) → DrawsAlike c d junk w.junks cs →
      Ensures (createValues junk w cs) fun r =>
        r.1.All (Uniform c d) ∧ ∀ v ∈ r.2, Uniform c d v
  | [], _, h, _ => ensures_ok ⟨h, fun _ hv => absurd hv List.not_mem_nil⟩
  | k :: cs, w, h, hdraws => by
      have hrest : ∀ {r : World × Value}, r.1.All (Uniform c d) → Uniform c d r.2 →
          DrawsAlike c d junk r.1.junks cs →
          Ensures (createValues junk r.1 cs >>= fun x => pure (x.1, r.2 :: x.2)) fun r =>
            r.1.All (Uniform c d) ∧ ∀ v ∈ r.2, Uniform c d v := by
        intro r hw hv hd
        refine .bind fun x hx => ensures_ok ?_
        obtain ⟨hw', hvs⟩ := createValues_alike cs hw hd x hx
        exact ⟨hw', List.forall_mem_cons.mpr ⟨hv, hvs⟩⟩
      cases k with
      | string str =>
          refine .bind fun r hr => ?_
          obtain ⟨hw, htype⟩ := internString_all h str r hr
          have hjunks : r.1.junks = w.junks := by
            obtain ⟨x, hx, hr⟩ := bind_eq_ok.mp hr
            cases hr
            exact stringFromDb_junks _ _ x hx
          refine hrest hw (uniform_lax _ (by rw [htype]; decide) (by rw [htype]; decide)) ?_
          rw [hjunks]
          exact hdraws
      | number n => exact hrest (r := (w, ⟨.number, n⟩)) h (uniform_lax _ nofun nofun) hdraws
      | true => exact hrest (r := (_, _)) h (uniform_boolean hdraws.1 true) hdraws.2
      | false => exact hrest (r := (_, _)) h (uniform_boolean hdraws.1 false) hdraws.2
      | nil =>
          refine hrest (r := (_, ⟨.nil, junk w.junks⟩)) h ?_ hdraws.2
          rw [hdraws.1]
          exact uniform_nil

theorem captureAll_all {capture : Upvalue → Outcome Value} (h : ∀ u, Ensures (capture u) P) :
    ∀ us, Ensures (captureAll capture us) fun vs => ∀ v ∈ vs, P v
  | [] => ensures_ok fun _ hv => absurd hv List.not_mem_nil
  | u :: us => .bind fun v hv => .bind fun vs hvs => ensures_ok
      (List.forall_mem_cons.mpr ⟨h u v hv, captureAll_all h us vs hvs⟩)

theorem lambda_alike {junk : Nat → BitVec 64} {prot : Proto} (narg : Int)
    {capture : Upvalue → Outcome Value} (h : w.All (Uniform c d))
    (hdraws : DrawsAlike c d junk w.junks prot.constants)
    (hcap : ∀ u, Ensures (capture u) (Uniform c d)) :
    Ensures (lambda junk w prot narg capture) fun r =>
      r.1.All (Uniform c d) ∧ Uniform c d r.2 := by
  refine .bind fun x hx => .bind fun ups hups => .bind fun r hr => ensures_ok ?_
  obtain ⟨hw, hconst⟩ := createValues_alike _ h hdraws x hx
  have hfn : FunctionObj.All (Uniform c d) ⟨narg, prot, x.2, ups⟩ :=
    ⟨hconst, captureAll_all hcap _ ups hups⟩
  exact ⟨hw.alloc (o := .function _) hfn r hr, uniform_lax _ nofun nofun⟩

/-! ## Steps -/

namespace Vm

variable {s s' : Vm} {h : Host} {a : Nat}

theorem All.callClosure (hP : Lax P) (hs : s.All P) (tmp ret : Nat) (f : Value) :
    Ensures (s.callClosure tmp a ret f) (All P) := by
  refine .bind fun _ _ => .bind fun fn hfn => .bind fun x hx => .bind fun _ _ => .bind fun _ _ =>
    ensures_ok ?_
  have hfn := functionAt_all hs.world f fn hfn
  obtain ⟨hw, hargs⟩ := enterArgs_all hP hs.world fn (hs.window _ _) x hx
  refine ⟨hw, overwrite_all hs.stack _ fun v hv => ?_, hfn, fun k => ?_⟩
  · rcases List.mem_append.mp hv with hv | hv
    · exact hargs v hv
    · exact hfn.upvalues v hv
  · dsimp only
    by_cases hk : k = s.frameTop
    · rw [hk, Function.update_self]
      exact hs.func
    · rw [Function.update_of_ne hk]
      exact hs.frames k

theorem All.callNative (hs : s.All (Uniform c d)) (ret : Nat) (halike : NativeAlike c d h s a) :
    Ensures (Vm.callNative h s (s.stackTop - (a + 1)) a ret (s.stack (s.stackTop - (a + 1))))
      (All (Uniform c d)) := by
  refine .bind fun r hr => ensures_ok ?_
  obtain ⟨hw, hleft, hret, hnone⟩ := halike r hr
  refine ⟨hw, fun i => ?_, hs.func, hs.frames⟩
  dsimp only
  split
  · exact hs.stack i
  · split
    · cases hv : r.ret with
      | none =>
          rw [Option.getD_none, hnone hv]
          exact uniform_nil
      | some v => exact hret v hv
    · exact hleft _

theorem All.callData (hs : s.All P) (tmp ret : Nat) {v : Value} (hv : P v) :
    All P (s.callData tmp ret v) :=
  ⟨hs.world, update_all hs.stack _ hv, hs.func, hs.frames⟩

theorem All.call (hs : s.All (Uniform c d)) (ret : Nat) (halike : NativeAlike c d h s a) :
    Ensures (Vm.call h s a ret) (All (Uniform c d)) := by
  refine .bind fun _ _ => ?_
  dsimp only
  split
  · exact hs.callClosure uniform_lax _ _ _
  · exact hs.callNative ret halike
  · exact .bind fun v hv => ensures_ok (hs.callData _ _ (callVector_all h hs.world _ _ v hv))
  · exact .bind fun v hv => ensures_ok (hs.callData _ _ (callMap_all hs.world _ _ v hv))
  · exact .bind fun _ _ => ensures_raise

theorem All.dropFrame (hs : s.All P) {frame : Frame} (hf : frame.func.All P) (a : Nat) :
    All P (s.dropFrame frame a) :=
  ⟨hs.world, overwrite_all hs.stack _ (hs.window _ _), hf, hs.frames⟩

theorem checkNumber_ok {v : Value} {u : Unit} (h : checkNumber v = .ok u) : v.type = .number := by
  unfold checkNumber at h
  split at h
  · assumption
  · obtain ⟨_, -, h⟩ := bind_eq_ok.mp h
    cases h

/-- Operations on numbers make numbers. -/
theorem uniform_number {x : Value} {u : Unit} (hx : checkNumber x = .ok u) (obj : BitVec 64) :
    Uniform c d ⟨x.type, obj⟩ := by
  rw [checkNumber_ok hx]
  exact uniform_lax _ nofun nofun

theorem arithOp_uniform (f : BitVec 64 → BitVec 64 → BitVec 64) (x y : Value) :
    Ensures (arithOp f x y) (Uniform c d) :=
  .bind fun _ hx => .bind fun _ _ => ensures_ok (uniform_number hx _)

theorem modOp_uniform (x y : Value) : Ensures (modOp h x y) (Uniform c d) :=
  .bind fun _ hx => .bind fun _ _ => .bind fun _ _ => .bind fun _ _ => .bind fun _ _ =>
    ensures_ok (uniform_number hx _)

theorem unmOp_uniform (x : Value) : Ensures (unmOp h x) (Uniform c d) :=
  .bind fun _ hx => ensures_ok (uniform_number hx _)

theorem logOp_uniform (f : BitVec 64 → BitVec 64 → Bool) {x : Value} (hx : upper x.obj = d)
    (y : Value) : Ensures (logOp f x y) (Uniform c d) :=
  .bind fun _ _ => .bind fun _ _ => ensures_ok (uniform_boolean hx _)

theorem All.load (hs : s.All P) (a : Nat) : Ensures (s.load a) (All P) :=
  .bind fun _ _ => hs.pushFrom (hs.slot _)

theorem All.copy (hs : s.All P) (a : Nat) : Ensures (s.copy a) (All P) :=
  .bind fun _ _ => .bind fun _ _ => hs.pushFrom (hs.slot _)

theorem All.test (hs : s.All P) (a : Nat) : Ensures (s.test a) (All P) := by
  refine .bind fun v _ => .bind fun s' hs' => ensures_ok ?_
  have hpop := hs.pop 1 s' hs'
  split
  · exact hpop.jump a
  · exact hpop.next

theorem All.ret (hs : s.All P) : Ensures s.ret (All P) :=
  .bind fun frame hf => .bind fun v hv => .bind fun _ _ =>
    ensures_ok ⟨hs.world, update_all hs.stack _ (hs.stk 1 v hv), hs.frame frame hf, hs.frames⟩

theorem All.constant (hs : s.All P) (a : Nat) :
    Ensures (Outcome.ofOption s.func.constants[a]?) P := fun v hv =>
  hs.func.constants v (List.mem_of_getElem? (ofOption_eq_ok.mp hv))

theorem All.capture (hs : s.All P) (u : Upvalue) : Ensures (s.capture u) P :=
  .bind fun _ _ => hs.slot _

theorem All.makeLambda (hs : s.All (Uniform c d)) (a : Nat) (b : Int)
    (hdraws : ∀ prot, s.func.prot.prot[a]? = some prot →
      DrawsAlike c d h.junk s.world.junks prot.constants) :
    Ensures (s.makeLambda h a b) (All (Uniform c d)) := by
  refine .bind fun prot hprot => .bind fun r hr => ?_
  obtain ⟨hw, hf⟩ := lambda_alike b hs.world (hdraws prot (ofOption_eq_ok.mp hprot)) hs.capture r hr
  exact (hs.withWorld hw).pushFrom (ensures_ok hf)

/-- One instruction. -/
theorem All.exec (hs : s.All (Uniform c d)) (op : Op) (b : Int)
    (halike : s.InstAlike c d h a op) : Ensures (s.exec h op a b) (All (Uniform c d)) := by
  have hnext : ∀ {x : Outcome Vm}, Ensures x (All (Uniform c d)) →
      Ensures (Vm.next <$> x) (All (Uniform c d)) := fun hx => .map fun s' hs' => (hx s' hs').next
  cases op with
  | push => exact hnext (hs.pushFrom (hs.constant a))
  | pop => exact hnext (hs.pop a)
  | copy => exact hnext (hs.copy a)
  | load => exact hnext (hs.load a)
  | add => exact hnext (hs.binary (arithOp_uniform _ _ _))
  | sub => exact hnext (hs.binary (arithOp_uniform _ _ _))
  | mul => exact hnext (hs.binary (arithOp_uniform _ _ _))
  | div => exact hnext (hs.binary (arithOp_uniform _ _ _))
  | pow => exact hnext (hs.binary (arithOp_uniform _ _ _))
  | mod => exact hnext (hs.binary (modOp_uniform _ _))
  | unm => exact hnext (hs.unary (unmOp_uniform _))
  | eq => exact hnext (hs.binary (ensures_ok (uniform_boolean halike _)))
  | less => exact hnext (hs.binary (logOp_uniform _ halike _))
  | lequal => exact hnext (hs.binary (logOp_uniform _ halike _))
  | not => exact hnext (hs.unary (ensures_ok (uniform_boolean halike _)))
  | and => exact hnext (hs.binary (ensures_ok (uniform_boolean halike _)))
  | or => exact hnext (hs.binary (ensures_ok (uniform_boolean halike _)))
  | test => exact hs.test a
  | jmp => exact ensures_ok (hs.jump a)
  | «return» => exact hs.ret
  | call => exact hs.call _ halike
  | tcall =>
      exact .bind fun frame hf => .bind fun _ _ =>
        (hs.dropFrame (hs.frame frame hf) a).call _ (halike frame hf)
  | lambda => exact hnext (hs.makeLambda a b halike)
  | getglobal =>
      exact .bind fun v hv => hnext (hs.pushFrom (ensures_ok (getGlobal_all hs.world _ _ v hv)))
  | setglobal =>
      refine .bind fun w hw => ensures_ok (All.next ?_)
      exact hs.withWorld (setGlobal_all uniform_lax hs.world _ _ (hs.stk 1) w hw)

theorem All.step (hs : s.All (Uniform c d)) (halike : s.TurnAlike c d h) :
    Ensures (s.step h) (All (Uniform c d)) := by
  refine .bind fun x hx => ?_
  obtain ⟨op, a, b⟩ := x
  exact hs.exec op b (halike op a b hx)

end Vm

/-! ## Pushes from C -/

/-- `v.obj.b = b`, an `int`. -/
def writeB (obj : BitVec 64) (b : BitVec 32) : BitVec 64 :=
  (obj &&& 0xffffffff00000000#64) ||| b.setWidth 64

theorem upper_writeB (obj : BitVec 64) (b : BitVec 32) : upper (writeB obj b) = upper obj := by
  have hlow : b.setWidth 64 &&& 0xffffffff00000000#64 = 0#64 := by
    have hmask : ∀ i : Fin 32, (0xffffffff00000000#64).getLsbD i = false := by decide
    refine BitVec.eq_of_getLsbD_eq fun i hi => ?_
    rw [BitVec.getLsbD_and, BitVec.getLsbD_setWidth, BitVec.getLsbD_zero]
    by_cases hlt : i < 32
    · rw [hmask ⟨i, hlt⟩, Bool.and_false]
    · rw [BitVec.getLsbD_of_ge b i (Nat.le_of_not_lt hlt), Bool.and_false, Bool.false_and]
  unfold upper writeB
  rw [BitVec.and_or_distrib_right, hlow, BitVec.and_assoc, BitVec.and_self, BitVec.or_zero]

/-- `su_pushnil`, `su_pushboolean`, `su_pushnumber` and `su_pushinteger`,
`su_pushfunction`, `su_pushpointer`, `su_pushbytes` and `su_pushstring`. -/
inductive ApiPush where
  | nil
  | boolean (b : BitVec 32)
  | number (n : BitVec 64)
  | function (f : BitVec 64)
  | pointer (p : BitVec 64)
  | bytes (str : List Byte)

/-- The local `v` of the push; its payload is what the C stack held there. -/
def ApiPush.value (junk : Nat → BitVec 64) (w : World) : ApiPush → Outcome (World × Value)
  | .nil => let (w, obj) := drawJunk junk w; pure (w, ⟨.nil, obj⟩)
  | .boolean b => let (w, obj) := drawJunk junk w; pure (w, ⟨.boolean, writeB obj b⟩)
  | .number n => pure (w, ⟨.number, n⟩)
  | .function f => pure (w, ⟨.nativefunc, f⟩)
  | .pointer p => pure (w, ⟨.nativeptr, p⟩)
  | .bytes str => internString w str

/-- The bytes such a local is made over. -/
def ApiPush.Alike (c d obj : BitVec 64) : ApiPush → Prop
  | .nil => obj = c
  | .boolean _ => upper obj = d
  | _ => True

namespace Vm

def apiPush (h : Host) (s : Vm) (p : ApiPush) : Outcome Vm := do
  let (w, v) ← p.value h.junk s.world
  { s with world := w }.pushValue v

variable {s s' : Vm} {h : Host}

theorem All.apiPush (hs : s.All (Uniform c d)) (p : ApiPush)
    (halike : p.Alike c d (h.junk s.world.junks)) :
    Ensures (s.apiPush h p) (All (Uniform c d)) := by
  have hpush : ∀ {w : World} {v : Value}, w.All (Uniform c d) → Uniform c d v →
      Ensures ({ s with world := w }.pushValue v) (All (Uniform c d)) := fun hw hv =>
    (hs.withWorld hw).pushFrom (ensures_ok hv)
  cases p with
  | nil =>
      refine hpush (v := ⟨.nil, h.junk s.world.junks⟩) hs.world ?_
      rw [show h.junk s.world.junks = c from halike]
      exact uniform_nil
  | boolean b => exact hpush hs.world ⟨nofun, fun _ => (upper_writeB _ b).trans halike⟩
  | number n => exact hpush hs.world (uniform_lax _ nofun nofun)
  | function f => exact hpush hs.world (uniform_lax _ nofun nofun)
  | pointer p => exact hpush hs.world (uniform_lax _ nofun nofun)
  | bytes str =>
      refine .bind fun r hr => ?_
      obtain ⟨hw, htype⟩ := internString_all hs.world str r hr
      exact hpush hw (uniform_lax _ (by rw [htype]; decide) (by rw [htype]; decide))

/-- What happens between two states, with the nil and booleans it makes
made over `c` and `d`: a turn of the loop, a push from C, a program loaded,
a function entered, or values popped from C. -/
inductive Alike (c d : BitVec 64) (h : Host) : Vm → Vm → Prop where
  | turn {s s' : Vm} : s.TurnAlike c d h → s.step h = .ok s' → Alike c d h s s'
  | push {s s' : Vm} (p : ApiPush) : p.Alike c d (h.junk s.world.junks) →
      s.apiPush h p = .ok s' → Alike c d h s s'
  | load {s s' : Vm} {n : Int} (prot : Proto) :
      DrawsAlike c d h.junk s.world.junks prot.constants →
      pushLoaded h s prot = .ok (n, s') → Alike c d h s s'
  | enter {s s' : Vm} (narg : Nat) : s.suEnter narg = .ok s' → Alike c d h s s'
  | pop {s s' : Vm} (n : Nat) : s.pop n = .ok s' → Alike c d h s s'

theorem All.alike (hs : s.All (Uniform c d)) (hmove : Alike c d h s s') :
    s'.All (Uniform c d) := by
  cases hmove with
  | turn halike hstep => exact hs.step halike s' hstep
  | push p halike hpush => exact hs.apiPush p halike s' hpush
  | load prot hdraws hload =>
      obtain ⟨r, hr, hload⟩ := bind_eq_ok.mp hload
      obtain ⟨s1, hs1, hload⟩ := bind_eq_ok.mp hload
      cases hload
      obtain ⟨hw, hf⟩ := lambda_alike _ hs.world hdraws hs.capture r hr
      exact (hs.withWorld hw).pushFrom (ensures_ok hf) s' hs1
  | enter narg henter =>
      obtain ⟨_, -, henter⟩ := bind_eq_ok.mp henter
      obtain ⟨_, -, henter⟩ := bind_eq_ok.mp henter
      obtain ⟨fn, hfn, henter⟩ := bind_eq_ok.mp henter
      obtain ⟨_, -, henter⟩ := bind_eq_ok.mp henter
      cases henter
      have hfn := functionAt_all hs.world _ fn hfn
      refine ⟨hs.world, hs.stack, hfn, fun k => ?_⟩
      dsimp only
      by_cases hk : k = s.frameTop
      · rw [hk, Function.update_self]
        exact hfn
      · rw [Function.update_of_ne hk]
        exact hs.frames k
  | pop n hpop => exact hs.pop n s' hpop

theorem All.run (hs : s.All (Uniform c d)) (hrun : Relation.ReflTransGen (Alike c d h) s s') :
    s'.All (Uniform c d) := by
  induction hrun with
  | refl => exact hs
  | tail _ hmove ih => exact ih.alike hmove

end Vm

/-- **Equality of nil and booleans.** Along a run in which every nil is made
over the same eight bytes and every boolean over the same four above
`obj.b`, nils on the stack are equal, and booleans are when their `obj.b`
are. -/
theorem equality_by_value {h : Host} {s s' : Vm} (hs : s.All (Uniform c d))
    (hrun : Relation.ReflTransGen (Vm.Alike c d h) s s') (i j : Nat) :
    ((s'.stack i).type = .nil → (s'.stack j).type = .nil →
      BothEqual (s'.stack i) (s'.stack j) true)
    ∧ ((s'.stack i).type = .boolean → (s'.stack j).type = .boolean →
      BothEqual (s'.stack i) (s'.stack j)
        ((s'.stack i).obj.setWidth 32 == (s'.stack j).obj.setWidth 32)) := by
  have hall := hs.run hrun
  exact ⟨fun hi hj => (hall.stack i).nil_equal (hall.stack j) hi hj,
    fun hi hj => (hall.stack i).boolean_equal (hall.stack j) hi hj⟩

/-- A run goes on by a turn that does what is asked of its instruction. -/
theorem Vm.alike_turn {h : Host} {s0 s s' : Vm} {op : Op} {a : Nat} {b : Int}
    (hrun : Relation.ReflTransGen (Vm.Alike c d h) s0 s) (hs : s0.All (Uniform c d))
    (hfetch : s.fetch = .ok (op, a, b)) (halike : s.All (Uniform c d) → s.InstAlike c d h a op)
    (hstep : s.step h = .ok s') : Relation.ReflTransGen (Vm.Alike c d h) s0 s' := by
  refine hrun.tail (.turn (fun op' a' b' hfetch' => ?_) hstep)
  cases hfetch.symm.trans hfetch'
  exact halike (hs.run hrun)

/-- Natives that give nil where they are called from. -/
theorem nativeAlike_idle {s : Vm} {a : Nat} (hs : s.All (Uniform 0#64 0#64)) :
    s.NativeAlike 0#64 0#64 idleHost a := by
  intro r hr
  cases hr
  exact ⟨hs.world, fun _ => uniform_nil, fun _ hv => (by cases hv), fun _ => rfl⟩

/-- The code of `((lambda () (< 1 2)))` and `(< 1 2)` behind a call of what is
on the stack, with small numbers of which only the lower half is written. -/
def mixed : FunctionObj :=
  ⟨0, .mk [⟨19#8, 0#8, 0#16⟩, ⟨21#8, 0#8, 0#16⟩, ⟨19#8, 0#8, 0#16⟩,
      ⟨0#8, 0#8, 0#16⟩, ⟨0#8, 1#8, 0#16⟩, ⟨11#8, 0#8, 0#16⟩] [] []
      [.mk [⟨0#8, 0#8, 0#16⟩, ⟨0#8, 1#8, 0#16⟩, ⟨11#8, 0#8, 0#16⟩, ⟨18#8, 0#8, 0#16⟩]
        [.number 1#64, .number 2#64] [] [] [] []] [] [],
    [⟨.number, 1#64⟩, ⟨.number, 2#64⟩], []⟩

/-- Where the C stack holds zeros: the nil of a native that returns nothing and
one pushed from C, and two booleans, one made in a closure. -/
theorem equality_by_value_mixed :
    ∃ s', Relation.ReflTransGen (Vm.Alike 0#64 0#64 idleHost) { emptyVm with func := mixed } s'
      ∧ s'.stackTop = 4 ∧ BothEqual (s'.stack 0) (s'.stack 3) true
      ∧ BothEqual (s'.stack 1) (s'.stack 2) true := by
  have hnumber : ∀ v ∈ mixed.constants, Uniform 0#64 0#64 v := fun v hv => by
    simp only [mixed, List.mem_cons, List.not_mem_nil, or_false] at hv
    rcases hv with rfl | rfl <;> exact uniform_lax _ nofun nofun
  have hstart : Vm.All (Uniform 0#64 0#64) { emptyVm with func := mixed } :=
    ⟨fun _ ho => absurd ho List.not_mem_nil, fun _ => uniform_nil,
      ⟨hnumber, fun _ hv => absurd hv List.not_mem_nil⟩,
      fun _ => ⟨fun _ hv => absurd hv List.not_mem_nil, fun _ hv => absurd hv List.not_mem_nil⟩⟩
  obtain ⟨s', hrun, htop, ht0, ht1, ht2, ht3, hobj⟩ :
      ∃ s', Relation.ReflTransGen (Vm.Alike 0#64 0#64 idleHost) { emptyVm with func := mixed } s'
        ∧ s'.stackTop = 4 ∧ (s'.stack 0).type = .nil ∧ (s'.stack 1).type = .boolean
        ∧ (s'.stack 2).type = .boolean ∧ (s'.stack 3).type = .nil
        ∧ ((s'.stack 1).obj.setWidth 32 == (s'.stack 2).obj.setWidth 32) = true := by
    have hpushed := Relation.ReflTransGen.single (show Vm.Alike 0#64 0#64 idleHost
      { emptyVm with func := mixed } _ from .push (.function 0x401000#64) trivial rfl)
    have hnative := Vm.alike_turn hpushed hstart rfl (fun hs => nativeAlike_idle hs) rfl
    -- the closure, and its comparison
    have hlambda := Vm.alike_turn hnative hstart rfl
      (fun _ prot hprot => by cases hprot; exact trivial) rfl
    have hcall := Vm.alike_turn hlambda hstart rfl (fun hs => nativeAlike_idle hs) rfl
    have hone := Vm.alike_turn hcall hstart rfl (fun _ => trivial) rfl
    have htwo := Vm.alike_turn hone hstart rfl (fun _ => trivial) rfl
    have hless := Vm.alike_turn htwo hstart rfl (fun _ => rfl) rfl
    have hreturn := Vm.alike_turn hless hstart rfl (fun _ => trivial) rfl
    -- the other one
    have hone := Vm.alike_turn hreturn hstart rfl (fun _ => trivial) rfl
    have htwo := Vm.alike_turn hone hstart rfl (fun _ => trivial) rfl
    have hless := Vm.alike_turn htwo hstart rfl (fun _ => rfl) rfl
    exact ⟨_, hless.tail (.push .nil rfl rfl), rfl, rfl, rfl, rfl, rfl, rfl⟩
  exact ⟨s', hrun, htop, (equality_by_value hstart hrun 0 3).1 ht0 ht3,
    hobj ▸ (equality_by_value hstart hrun 1 2).2 ht1 ht2⟩

/-- The code of `(< 1 2)` and `(< 3 4)`, one after the other. -/
def comparisons : FunctionObj :=
  ⟨0, .mk [⟨0#8, 0#8, 0#16⟩, ⟨0#8, 1#8, 0#16⟩, ⟨11#8, 0#8, 0#16⟩,
      ⟨0#8, 2#8, 0#16⟩, ⟨0#8, 3#8, 0#16⟩, ⟨11#8, 0#8, 0#16⟩] [] [] [] [] [],
    [⟨.number, 0x3ff0000000000000#64⟩, ⟨.number, 0x4000000000000000#64⟩,
      ⟨.number, 0x4008000000000000#64⟩, ⟨.number, 0x4010000000000000#64⟩], []⟩

/-- Both comparisons are true, and the two values are not equal: they were
written over the doubles `1` and `3`. -/
theorem comparisons_differ :
    ∃ s', (Vm.loop idleHost).Steps { emptyVm with func := comparisons } s'
      ∧ s'.stackTop = 2 ∧ (s'.stack 0).type = .boolean ∧ (s'.stack 1).type = .boolean
      ∧ (s'.stack 0).obj.setWidth 32 = 1#32 ∧ (s'.stack 1).obj.setWidth 32 = 1#32
      ∧ BothEqual (s'.stack 0) (s'.stack 1) false :=
  ⟨_, .head ⟨by decide, rfl⟩ (.head ⟨by decide, rfl⟩ (.head ⟨by decide, rfl⟩
    (.head ⟨by decide, rfl⟩ (.head ⟨by decide, rfl⟩ (.single ⟨by decide, rfl⟩))))),
    rfl, rfl, rfl, rfl, rfl, rfl, rfl⟩

end Saurus
