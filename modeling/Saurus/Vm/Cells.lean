import Saurus.Vm.Closures

/-!
# Strings and cells

A string or a cell that was made is never written to again: no instruction
does, and natives are expected not to. So whatever runs between two states,
the data in the first is there in the second (`Vm.keepsData_turns`).
-/

namespace Saurus

open Basis Outcome

variable {w w' w'' : World}

/-- Strings and cells stay as they are. -/
structure World.KeepsData (w w' : World) : Prop where
  strings : w.KeepsStrings w'
  cells : ∀ a x rest, w.object a = .ok (.cell x rest) → w'.object a = .ok (.cell x rest)

theorem World.Extends.keepsData (h : w.Extends w') : w.KeepsData w' :=
  ⟨fun a _ _ hobj => h a _ hobj, fun a _ _ hobj => h a _ hobj⟩

namespace World.KeepsData

theorem rfl : w.KeepsData w := World.Extends.rfl.keepsData

theorem trans (h : w.KeepsData w') (h' : w'.KeepsData w'') : w.KeepsData w'' :=
  ⟨h.strings.trans h'.strings, fun a x rest hobj => h'.cells a x rest (h.cells a x rest hobj)⟩

theorem of_objects (h : w'.objects = w.objects) : w.KeepsData w' := by
  refine World.Extends.keepsData fun a o hobj => ?_
  rwa [World.object, h]

/-- Whatever the new object is. -/
theorem alloc {o : Obj} : Ensures (w.alloc o) fun r => w.KeepsData r.1 := by
  intro r hr
  obtain ⟨hw, -, -⟩ := alloc_ok hr
  exact World.Extends.keepsData fun a o hobj => hw ▸ object_append hobj

theorem additive : World.Additive World.KeepsData := ⟨of_objects, trans, fun _ => alloc⟩

end World.KeepsData

theorem lambda_keepsData {junk : Nat → BitVec 64} {prot : Proto} (narg : Int)
    {capture : Upvalue → Outcome Value} :
    Ensures (lambda junk w prot narg capture) fun r => w.KeepsData r.1 :=
  .bind fun x hx => .bind fun _ _ => .bind fun r hr => ensures_ok
    ((createValues_additive World.KeepsData.additive _ x hx).trans (World.KeepsData.alloc r hr))

namespace Vm

/-- Natives leave strings and cells as they are. -/
def NativesKeep (h : Host) : Prop :=
  ∀ f w args r, h.native f w args = .ok r → w.KeepsData r.world

/-- The data of `s` is there in the outcome. -/
abbrev KeepsData (s : Vm) (x : Outcome Vm) : Prop :=
  Ensures x fun s' => s.world.KeepsData s'.world

variable {h : Host} {s s' : Vm} {a : Nat}

theorem keepsData_next {x : Outcome Vm} (hx : s.KeepsData x) : s.KeepsData (next <$> x) :=
  .map fun s' hs' => hx s' hs'

theorem keepsData_pushFrom (v : Outcome Value) : s.KeepsData (s.pushFrom v) :=
  .bind fun _ _ => .bind fun _ _ => ensures_ok .rfl

theorem keepsData_pop (n : Nat) : s.KeepsData (s.pop n) := .bind fun _ _ => ensures_ok .rfl

theorem keepsData_binary (f : Value → Value → Outcome Value) : s.KeepsData (s.binary f) :=
  .bind fun _ _ => .bind fun _ _ => .bind fun _ _ => ensures_ok .rfl

theorem keepsData_unary (f : Value → Outcome Value) : s.KeepsData (s.unary f) :=
  .bind fun _ _ => .bind fun _ _ => ensures_ok .rfl

theorem keepsData_call (hnative : NativesKeep h) (ret : Nat) : s.KeepsData (Vm.call h s a ret) := by
  refine .bind fun _ _ => ?_
  dsimp only
  split
  · exact .bind fun _ _ => .bind fun fn _ => .bind fun x hx => .bind fun _ _ => .bind fun _ _ =>
      ensures_ok (enterArgs_additive World.KeepsData.additive fn _ x hx)
  · exact .bind fun r hr => ensures_ok (hnative _ _ _ r hr)
  · exact .bind fun v _ => ensures_ok .rfl
  · exact .bind fun v _ => ensures_ok .rfl
  · exact .bind fun _ _ => ensures_raise

theorem keepsData_makeLambda (b : Int) : s.KeepsData (s.makeLambda h a b) :=
  .bind fun _ _ => .bind fun r hr s' hs' =>
    (lambda_keepsData b r hr).trans (keepsData_pushFrom (s := { s with world := r.1 }) _ s' hs')

/-- One instruction. -/
theorem keepsData_exec (hnative : NativesKeep h) (op : Op) (b : Int) :
    s.KeepsData (s.exec h op a b) := by
  cases op with
  | push => exact keepsData_next (keepsData_pushFrom _)
  | pop => exact keepsData_next (keepsData_pop a)
  | copy => exact keepsData_next (.bind fun _ _ => .bind fun _ _ => keepsData_pushFrom _)
  | load => exact keepsData_next (.bind fun _ _ => keepsData_pushFrom _)
  | unm => exact keepsData_next (keepsData_unary _)
  | not => exact keepsData_next (keepsData_unary _)
  | test =>
      refine .bind fun v _ => .bind fun s' hs' => ensures_ok ?_
      refine (keepsData_pop 1 s' hs').trans ?_
      split
      · exact .rfl
      · exact .rfl
  | jmp => exact ensures_ok .rfl
  | «return» => exact .bind fun _ _ => .bind fun _ _ => .bind fun _ _ => ensures_ok .rfl
  | call => exact keepsData_call hnative _
  | tcall =>
      exact .bind fun frame _ => .bind fun _ _ s' hs' =>
        keepsData_call (s := s.dropFrame frame a) hnative _ s' hs'
  | lambda => exact keepsData_next (keepsData_makeLambda b)
  | getglobal => exact .bind fun _ _ => keepsData_next (keepsData_pushFrom _)
  | setglobal =>
      exact .bind fun w hw =>
        ensures_ok (setGlobal_additive World.KeepsData.additive _ _ _ w hw)
  | _ => exact keepsData_next (keepsData_binary _)

theorem keepsData_step (hnative : NativesKeep h) : s.KeepsData (s.step h) :=
  .bind fun _ _ => keepsData_exec hnative _ _

end Vm

end Saurus
