import Saurus.Vm.Uniform

/-!
# Closures and their constants

The constants of a function are created when `lambda` makes it, once for
every closure, and nothing changes them afterwards. So in any state of a run
the constants of a function are what `create_value` made of those of its
prototype in some earlier state (`FunctionObj.Made`), and the strings among
them are what they were then.
-/

namespace Saurus

open Basis Outcome

/-! ## Worlds that grow -/

/-- Strings stay as they are. -/
def World.KeepsStrings (w w' : World) : Prop :=
  ∀ a hash str, w.object a = .ok (.string hash str) → w'.object a = .ok (.string hash str)

/-- `f` was made by `lambda`, and the strings among its constants are still
there. -/
def FunctionObj.Made (junk : Nat → BitVec 64) (f : FunctionObj) (w : World) : Prop :=
  ∃ w0 w1, createValues junk w0 f.prot.constants = .ok (w1, f.constants) ∧ w1.KeepsStrings w

variable {junk : Nat → BitVec 64} {w w' w'' : World}

theorem World.KeepsStrings.rfl : w.KeepsStrings w := fun _ _ _ h => h

theorem World.KeepsStrings.trans (h : w.KeepsStrings w') (h' : w'.KeepsStrings w'') :
    w.KeepsStrings w'' := fun a hash str hobj => h' a hash str (h a hash str hobj)

theorem FunctionObj.Made.keeps {f : FunctionObj} (h : f.Made junk w) (hw : w.KeepsStrings w') :
    f.Made junk w' := by
  obtain ⟨w0, w1, hrun, hkeep⟩ := h
  exact ⟨w0, w1, hrun, hkeep.trans hw⟩

/-- Strings are kept, and every new function was made by `lambda`. -/
structure World.Grows (junk : Nat → BitVec 64) (w w' : World) : Prop where
  strings : w.KeepsStrings w'
  functions : ∀ f, Obj.function f ∈ w'.objects → .function f ∈ w.objects ∨ f.Made junk w'

namespace World.Grows

theorem of_objects (h : w'.objects = w.objects) : w.Grows junk w' := by
  refine ⟨fun a hash str hobj => ?_, fun f hf => Or.inl (h ▸ hf)⟩
  rwa [World.object, h]

theorem rfl : w.Grows junk w := of_objects (Eq.refl _)

theorem trans (h : w.Grows junk w') (h' : w'.Grows junk w'') : w.Grows junk w'' := by
  refine ⟨h.strings.trans h'.strings, fun f hf => ?_⟩
  rcases h'.functions f hf with hf | hf
  · exact (h.functions f hf).imp_right fun hmade => hmade.keeps h'.strings
  · exact Or.inr hf

/-- A new object that is no function. -/
theorem alloc {o : Obj} (ho : ∀ f, o ≠ .function f) :
    Ensures (w.alloc o) fun r => w.Grows junk r.1 := by
  intro r hr
  obtain ⟨hw, -, -⟩ := alloc_ok hr
  rw [hw]
  refine ⟨fun a hash str hobj => object_append hobj, fun f hf => ?_⟩
  rcases List.mem_append.mp hf with hf | hf
  · exact Or.inl hf
  · exact absurd (List.mem_singleton.mp hf).symm (ho f)

end World.Grows

/-! ## Operations on worlds -/

/-- A relation between a world and a later one that has nothing to say of new
objects, as long as they are no functions. -/
structure World.Additive (R : World → World → Prop) : Prop where
  of_objects : ∀ {w w' : World}, w'.objects = w.objects → R w w'
  trans : ∀ {w w' w'' : World}, R w w' → R w' w'' → R w w''
  alloc : ∀ {w : World} {o : Obj}, (∀ f, o ≠ .function f) → Ensures (w.alloc o) fun r => R w r.1

theorem World.Grows.additive : World.Additive (World.Grows junk) := ⟨of_objects, trans, alloc⟩

section Additive

variable {R : World → World → Prop} (hR : World.Additive R)

include hR

theorem World.Additive.rfl : R w w := hR.of_objects (Eq.refl _)

theorem stringFromDb_additive (hash : BitVec 32) (str : List Byte) :
    Ensures (stringFromDb w hash str) fun r => R w r.1 := by
  refine .bind fun v _ => ?_
  split
  · exact ensures_ok hR.rfl
  · refine .bind fun r hr => .bind fun strings _ => ensures_ok ?_
    exact hR.trans (hR.alloc (o := .string hash str) nofun r hr) (hR.of_objects rfl)

theorem internString_additive (str : List Byte) :
    Ensures (internString w str) fun r => R w r.1 :=
  .bind fun r hr => ensures_ok (stringFromDb_additive hR _ str r hr)

theorem insertGlobal_additive (key : Value) (hash : BitVec 32) (val : Value) :
    Ensures (insertGlobal w key hash val) (R w) := by
  refine .bind fun m _ => .bind fun m' _ => ?_
  cases m' with
  | none => exact ensures_ok hR.rfl
  | some m' =>
      exact .bind fun r hr => ensures_ok
        (hR.trans (hR.alloc (o := .map m') nofun r hr) (hR.of_objects rfl))

theorem updateGlobalRef_additive : Ensures (updateGlobalRef w) (R w) := by
  refine .bind fun r hr => .bind fun l hl => .bind fun hash _ w' hw' => ?_
  have hloc : R r.1 l.1 := hR.alloc (o := .loc _) nofun l hl
  exact hR.trans (hR.trans (internString_additive hR _ r hr) hloc)
    (insertGlobal_additive hR _ _ _ w' hw')

theorem setGlobal_additive (func : FunctionObj) (a : Nat) (v : Outcome Value) :
    Ensures (setGlobal w func a v) (R w) := by
  refine .bind fun x _ => ?_
  obtain ⟨key, hash⟩ := x
  refine .bind fun m _ => .bind fun old _ => ?_
  split
  · exact globalError_ensures _ _ _
  · refine .bind fun v _ => .bind fun w1 hw1 w2 hw2 => ?_
    exact hR.trans (insertGlobal_additive hR _ _ _ w1 hw1) (updateGlobalRef_additive hR w2 hw2)

theorem pushAll_additive : ∀ (args : List Value) {w : World} (a : ObjAddr) (vec : Vec),
    Ensures (pushAll w a vec args) fun r => R w r.1
  | [], _, _, _ => ensures_ok hR.rfl
  | _ :: vs, _, _, _ => .bind fun vec _ => .bind fun r hr x hx =>
      hR.trans (hR.alloc (o := .vector vec) nofun r hr) (pushAll_additive vs r.2 _ x hx)

theorem enterArgs_additive (fn : FunctionObj) (args : List Value) :
    Ensures (enterArgs w fn args) fun r => R w r.1 := by
  unfold enterArgs
  split
  · refine .bind fun r hr => ensures_ok ?_
    obtain ⟨l, hl, hr⟩ := bind_eq_ok.mp hr
    obtain ⟨x, hx, hr⟩ := bind_eq_ok.mp hr
    cases hr
    exact hR.trans (hR.alloc (o := .vector vectorCreateEmpty) nofun l hl)
      (pushAll_additive hR args _ _ x hx)
  · exact .bind fun _ _ => ensures_ok hR.rfl

theorem createValue_additive (k : ProtoConst) :
    Ensures (createValue junk w k) fun r => R w r.1 := by
  cases k with
  | string str => exact internString_additive hR str
  | number n => exact ensures_ok hR.rfl
  | _ => exact ensures_ok (hR.of_objects rfl)

theorem createValues_additive : ∀ (ks : List ProtoConst) {w : World},
    Ensures (createValues junk w ks) fun r => R w r.1
  | [], _ => ensures_ok hR.rfl
  | k :: ks, _ => .bind fun r hr => .bind fun x hx => ensures_ok
      (hR.trans (createValue_additive hR k r hr) (createValues_additive ks x hx))

end Additive

theorem functionAt_made {f : FunctionObj} (h : ∀ f, Obj.function f ∈ w.objects → f.Made junk w)
    (v : Value) (hf : functionAt w v = .ok f) : f.Made junk w := by
  obtain ⟨o, ho, hf⟩ := bind_eq_ok.mp hf
  unfold World.object at ho
  split at ho
  · cases ho
  · have hmem := List.mem_of_getElem? (ofOption_eq_ok.mp ho)
    cases o with
    | function f' =>
        cases hf
        exact h _ hmem
    | _ => cases hf

theorem lambda_grows {prot : Proto} (narg : Int) {capture : Upvalue → Outcome Value} :
    Ensures (lambda junk w prot narg capture) fun r => w.Grows junk r.1 := by
  refine .bind fun x hx => .bind fun ups _ => .bind fun r hr => ensures_ok ?_
  refine (createValues_additive World.Grows.additive _ x hx).trans ?_
  obtain ⟨hw, -, -⟩ := alloc_ok hr
  have hkeep : x.1.KeepsStrings r.1 := fun a hash str hobj => hw ▸ object_append hobj
  refine ⟨hkeep, fun f hf => ?_⟩
  rw [hw] at hf
  rcases List.mem_append.mp hf with hf | hf
  · exact Or.inl hf
  · obtain rfl := Obj.function.inj (List.mem_singleton.mp hf)
    exact Or.inr ⟨w, x.1, hx, hkeep⟩

/-! ## States -/

namespace Vm

/-- Every function the interpreter can come to was made by `lambda`. -/
structure Closed (h : Host) (s : Vm) : Prop where
  objects : ∀ f, Obj.function f ∈ s.world.objects → f.Made h.junk s.world
  func : s.func.Made h.junk s.world
  frames : ∀ k < s.frameTop, (s.frames k).func.Made h.junk s.world

/-- Natives leave strings as they are, and make functions with `lambda` only. -/
def NativesGrow (h : Host) : Prop :=
  ∀ f w args r, h.native f w args = .ok r → w.Grows h.junk r.world

/-- From `s` on, a state that has kept its strings and made its functions with
`lambda`. -/
structure After (h : Host) (s s' : Vm) : Prop where
  world : s.world.Grows h.junk s'.world
  closed : s.Closed h → s'.Closed h

variable {h : Host} {s s' s'' : Vm} {a : Nat}

theorem After.rfl : After h s s := ⟨.rfl, id⟩

theorem After.trans (hs : After h s s') (hs' : After h s' s'') : After h s s'' :=
  ⟨hs.world.trans hs'.world, fun hc => hs'.closed (hs.closed hc)⟩

/-- The functions of a state are as good in a world that has grown. -/
theorem Closed.functions (hs : s.Closed h) {w : World} (hw : s.world.Grows h.junk w) :
    ∀ f, Obj.function f ∈ w.objects → f.Made h.junk w := fun f hf =>
  (hw.functions f hf).elim (fun hold => (hs.objects f hold).keeps hw.strings) id

/-- A state with the functions of another and a world that has grown. -/
theorem After.of_frames (hw : s.world.Grows h.junk s'.world)
    (hfunc : s'.func = s.func ∨ ∃ v, functionAt s.world v = .ok s'.func
      ∨ ∃ k < s.frameTop, s'.func = (s.frames k).func)
    (hframes : ∀ k < s'.frameTop, (s'.frames k).func = s.func
      ∨ k < s.frameTop ∧ (s'.frames k).func = (s.frames k).func) : After h s s' := by
  refine ⟨hw, fun hs => ⟨hs.functions hw, ?_, fun k hk => ?_⟩⟩
  · rcases hfunc with heq | ⟨v, hat | ⟨k, hk, heq⟩⟩
    · exact heq ▸ hs.func.keeps hw.strings
    · exact (functionAt_made hs.objects v hat).keeps hw.strings
    · exact heq ▸ (hs.frames k hk).keeps hw.strings
  · rcases hframes k hk with heq | ⟨hlt, heq⟩
    · exact heq ▸ hs.func.keeps hw.strings
    · exact heq ▸ (hs.frames k hlt).keeps hw.strings

/-- Only the stack, the program counter and the world have changed. -/
theorem After.of_world {s : Vm} {w : World} {stack : Nat → Value} {top pc : Nat}
    (hw : s.world.Grows h.junk w) :
    After h s { s with world := w, stack := stack, stackTop := top, pc := pc } :=
  .of_frames hw (Or.inl (Eq.refl _)) fun _ hk => Or.inr ⟨hk, Eq.refl _⟩

theorem after_pushFrom (v : Outcome Value) : Ensures (s.pushFrom v) (After h s) :=
  .bind fun _ _ => .bind fun _ _ => ensures_ok (.of_world .rfl)

theorem after_pop (n : Nat) : Ensures (s.pop n) (After h s) :=
  .bind fun _ _ => ensures_ok (.of_world .rfl)

theorem after_binary (f : Value → Value → Outcome Value) : Ensures (s.binary f) (After h s) :=
  .bind fun _ _ => .bind fun _ _ => .bind fun _ _ => ensures_ok (.of_world .rfl)

theorem after_unary (f : Value → Outcome Value) : Ensures (s.unary f) (After h s) :=
  .bind fun _ _ => .bind fun _ _ => ensures_ok (.of_world .rfl)

theorem After.next (hs : After h s s') : After h s s'.next := hs.trans (.of_world .rfl)

/-! ## Steps -/

theorem after_callClosure (tmp ret : Nat) (f : Value) :
    Ensures (s.callClosure tmp a ret f) (After h s) := by
  refine .bind fun _ _ => .bind fun fn hfn => .bind fun x hx => .bind fun _ _ => .bind fun _ _ =>
    ensures_ok ?_
  refine .of_frames (enterArgs_additive World.Grows.additive fn _ x hx)
    (Or.inr ⟨f, Or.inl hfn⟩) fun k hk => ?_
  change (Function.update s.frames s.frameTop _ k).func = _ ∨ _
  by_cases hlt : k = s.frameTop
  · rw [hlt, Function.update_self]
    exact Or.inl rfl
  · refine Or.inr ⟨Nat.lt_of_le_of_ne (Nat.lt_succ_iff.mp hk) hlt, ?_⟩
    exact congrArg Frame.func (Function.update_of_ne hlt ..)

theorem after_call (hnative : NativesGrow h) (ret : Nat) :
    Ensures (Vm.call h s a ret) (After h s) := by
  refine .bind fun _ _ => ?_
  dsimp only
  split
  · exact after_callClosure _ _ _
  · exact .bind fun r hr => ensures_ok (.of_world (hnative _ _ _ r hr))
  · exact .bind fun v _ => ensures_ok (.of_world .rfl)
  · exact .bind fun v _ => ensures_ok (.of_world .rfl)
  · exact .bind fun _ _ => ensures_raise

theorem after_dropFrame {frame : Frame} (hframe : s.frame = .ok frame) :
    After h s (s.dropFrame frame a) := by
  obtain ⟨_, hpos, hframe⟩ := bind_eq_ok.mp hframe
  cases hframe
  have hpos := of_decide_eq_true (require_eq_ok.mp hpos)
  refine .of_frames .rfl (Or.inr ⟨⟨.nil, 0#64⟩, Or.inr ⟨s.frameTop - 1, by omega, rfl⟩⟩)
    fun k hk => Or.inr ⟨?_, rfl⟩
  change k < s.frameTop - 1 at hk
  omega

theorem after_ret : Ensures s.ret (After h s) := by
  refine .bind fun frame hframe => .bind fun _ _ => .bind fun _ _ => ensures_ok ?_
  exact (after_dropFrame (a := 0) hframe).trans (.of_world .rfl)

theorem after_makeLambda (b : Int) : Ensures (s.makeLambda h a b) (After h s) := by
  refine .bind fun prot _ => .bind fun r hr s' hs' => ?_
  have hw : After h s { s with world := r.1 } := .of_world (lambda_grows b r hr)
  exact hw.trans (after_pushFrom _ s' hs')

/-- One instruction. -/
theorem after_exec (hnative : NativesGrow h) (op : Op) (b : Int) :
    Ensures (s.exec h op a b) (After h s) := by
  have hnext : ∀ {x : Outcome Vm}, Ensures x (After h s) → Ensures (Vm.next <$> x) (After h s) :=
    fun hx => .map fun s' hs' => (hx s' hs').next
  cases op with
  | push => exact hnext (after_pushFrom _)
  | pop => exact hnext (after_pop a)
  | copy => exact hnext (.bind fun _ _ => .bind fun _ _ => after_pushFrom _)
  | load => exact hnext (.bind fun _ _ => after_pushFrom _)
  | unm => exact hnext (after_unary _)
  | not => exact hnext (after_unary _)
  | test =>
      refine .bind fun v _ => .bind fun s' hs' => ensures_ok ?_
      refine (after_pop 1 s' hs').trans ?_
      split
      · exact .of_world .rfl
      · exact .of_world .rfl
  | jmp => exact ensures_ok (.of_world .rfl)
  | «return» => exact after_ret
  | call => exact after_call hnative _
  | tcall =>
      exact .bind fun frame hframe => .bind fun _ _ s' hs' =>
        (after_dropFrame hframe).trans (after_call hnative _ s' hs')
  | lambda => exact hnext (after_makeLambda b)
  | getglobal => exact .bind fun v _ => hnext (after_pushFrom _)
  | setglobal =>
      exact .bind fun w hw =>
        ensures_ok (.of_world (setGlobal_additive World.Grows.additive _ _ _ w hw))
  | _ => exact hnext (after_binary _)

theorem after_step (hnative : NativesGrow h) : Ensures (s.step h) (After h s) :=
  .bind fun _ _ => after_exec hnative _ _

theorem after_suEnter (narg : Nat) : Ensures (s.suEnter narg) (After h s) := by
  refine .bind fun _ _ => .bind fun _ _ => .bind fun fn hfn => .bind fun _ _ => ensures_ok ?_
  refine ⟨.rfl, fun hs => ⟨hs.objects, functionAt_made hs.objects _ hfn, fun k hk => ?_⟩⟩
  change (Function.update s.frames s.frameTop _ k).func.Made _ _
  by_cases hlt : k = s.frameTop
  · rw [hlt, Function.update_self]
    exact functionAt_made hs.objects _ hfn
  · rw [Function.update_of_ne hlt]
    exact hs.frames k (Nat.lt_of_le_of_ne (Nat.lt_succ_iff.mp hk) hlt)

/-! ## Runs -/

/-- What can happen between two states: a turn of the loop, a push or a pop
from C, a program loaded, or a function entered; and a whole call from C. -/
inductive Moves (h : Host) : Vm → Vm → Prop where
  | turn {s s' : Vm} : s.step h = .ok s' → Moves h s s'
  | push {s s' : Vm} (p : ApiPush) : s.apiPush h p = .ok s' → Moves h s s'
  | pop {s s' : Vm} (n : Nat) : s.pop n = .ok s' → Moves h s s'
  | load {s s' : Vm} {n : Int} (prot : Proto) : pushLoaded h s prot = .ok (n, s') → Moves h s s'
  | enter {s s' : Vm} (narg : Nat) : s.suEnter narg = .ok s' → Moves h s s'
  | call {s s' : Vm} (narg : Nat) : SuCall h s narg (.ok s') → Moves h s s'

theorem after_apiPush (p : ApiPush) : Ensures (s.apiPush h p) (After h s) := by
  refine .bind fun r hr s' hs' => ?_
  have hw : s.world.Grows h.junk r.1 := by
    cases p with
    | bytes str => exact internString_additive World.Grows.additive str r hr
    | _ =>
        cases hr
        exact .of_objects rfl
  exact (After.of_world (s := s) hw).trans (after_pushFrom _ s' hs')

theorem after_steps (hnative : NativesGrow h) (hsteps : (loop h).Steps s s') :
    After h s s' := by
  induction hsteps with
  | refl => exact .rfl
  | tail _ hnext ih => exact ih.trans (after_step hnative _ hnext.2)

theorem after_suCall (hnative : NativesGrow h) {narg : Nat} (hcall : SuCall h s narg (.ok s')) :
    After h s s' := by
  obtain ⟨o, hrun, ho⟩ := hcall
  cases o with
  | ok s2 =>
      cases ho
      cases henter : s.suEnter narg with
      | ok s1 =>
          rw [henter] at hrun
          have hs2 := (after_suEnter narg s1 henter).trans (after_steps hnative (hrun.steps rfl))
          refine ⟨hs2.world, fun hs => ⟨(hs2.closed hs).objects, ?_, (hs2.closed hs).frames⟩⟩
          exact hs.func.keeps hs2.world.strings
      | raise msg =>
          rw [henter] at hrun
          cases hrun
      | fault =>
          rw [henter] at hrun
          cases hrun
  | raise msg => cases ho
  | fault => cases ho

theorem after_move (hnative : NativesGrow h) (hmove : Moves h s s') : After h s s' := by
  cases hmove with
  | turn hstep => exact after_step hnative s' hstep
  | push p hpush => exact after_apiPush p s' hpush
  | pop n hpop => exact after_pop n s' hpop
  | load prot hload =>
      obtain ⟨r, hr, hload⟩ := bind_eq_ok.mp hload
      obtain ⟨s1, hs1, hload⟩ := bind_eq_ok.mp hload
      cases hload
      have hw : After h s { s with world := r.1 } := .of_world (lambda_grows _ r hr)
      exact hw.trans (after_pushFrom _ _ hs1)
  | enter narg henter => exact after_suEnter narg s' henter
  | call narg hcall => exact after_suCall hnative hcall

theorem after_moves (hnative : NativesGrow h) (hrun : Relation.ReflTransGen (Moves h) s s') :
    After h s s' := by
  induction hrun with
  | refl => exact .rfl
  | tail _ hmove ih => exact ih.trans (after_move hnative hmove)

/-- No program has been loaded yet. -/
structure Unloaded (s : Vm) : Prop where
  objects : ∀ f, Obj.function f ∉ s.world.objects
  frameTop : s.frameTop = 0
  prot : s.func.prot.constants = []
  constants : s.func.constants = []

theorem Unloaded.closed (hs : s.Unloaded) : s.Closed h where
  objects := fun f hf => absurd hf (hs.objects f)
  func := ⟨s.world, s.world, by rw [hs.prot, hs.constants]; rfl, .rfl⟩
  frames := fun k hk => absurd (hs.frameTop ▸ hk) (Nat.not_lt_zero k)

end Vm

end Saurus
