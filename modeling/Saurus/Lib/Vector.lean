import Saurus.Vec.Refine
import Saurus.Vm.Native

/-!
# The vector natives

The functions of the C interface that work on vectors, and the natives made
of them. A vector is read through `obj.vec` of whatever is in its slot, and
every update makes a new object.
-/

namespace Saurus

open Basis

/-! ## Vectors in the world -/

/-- The `vector_t` at `v.obj.vec`. -/
def vecObject (w : World) (v : Value) : Outcome Vec := do
  match ← w.object v.addr with
  | .vector vec => pure vec
  | _ => .fault

/-- The value of a new vector. -/
def newVector (w : World) (vec : Vec) : Outcome (World × Value) := do
  let (w, a) ← w.alloc (.vector vec)
  pure (w, objValue .vector a)

/-- The loop of `su_vector` and `su_vector_push`. -/
def suVectorPushLoop : World → Value → List Value → Outcome (World × Value)
  | w, v, [] => pure (w, v)
  | w, v, x :: xs => do
      let (w, v) ← newVector w (← vectorPush (← vecObject w v) x)
      suVectorPushLoop w v xs

/-- The loop of `su_vector_pop`, `n` turns of it. -/
def suVectorPopLoop : World → Value → Nat → Outcome (World × Value)
  | w, v, 0 => pure (w, v)
  | w, v, n + 1 => do
      let (w, v) ← newVector w (← vectorPop (← vecObject w v))
      suVectorPopLoop w v n

namespace Vm

/-- `su_copy(s, -i)` -/
def suCopy (s : Vm) (i : Nat) : Outcome Vm := s.pushFrom (s.stk i)

/-- `su_vector` -/
def suVector (s : Vm) (num : Nat) : Outcome Vm := do
  let (w, v) ← newVector s.world vectorCreateEmpty
  Outcome.require (decide (num ≤ s.stackTop))
  let (w, v) ← suVectorPushLoop w v (s.window (s.stackTop - num) num)
  { s with world := w }.pushValue v

/-- `su_vector_length(s, -i)` -/
def suVectorLength (s : Vm) (i : Nat) : Outcome Int := do
  pure (vectorLength (← vecObject s.world (← s.stk i)))

/-- `su_vector_index(s, -i)` -/
def suVectorIndex (h : Host) (s : Vm) (i : Nat) : Outcome Vm := do
  let vec ← vecObject s.world (← s.stk i)
  let v ← vectorIndex vec (← h.toInt (← s.stk 1).obj)
  pure { s with stack := Function.update s.stack (s.stackTop - 1) v }

/-- `su_vector_set(s, -i)` -/
def suVectorSet (h : Host) (s : Vm) (i : Nat) : Outcome Vm := do
  let vec ← vecObject s.world (← s.stk i)
  let (w, v) ← newVector s.world (← vectorSet vec (← h.toInt (← s.stk 2).obj) (← s.stk 1))
  { s with world := w, stack := Function.update s.stack (s.stackTop - 2) v }.pop 1

/-- `su_vector_push(s, -i, num)` -/
def suVectorPush (s : Vm) (i num : Nat) : Outcome Vm := do
  let v ← s.stk i
  Outcome.require (decide (num ≤ s.stackTop))
  let (w, v) ← suVectorPushLoop s.world v (s.window (s.stackTop - num) num)
  { s with world := w }.pushValue v

/-- `su_vector_pop(s, -i, -num)` -/
def suVectorPop (h : Host) (s : Vm) (i num : Nat) : Outcome Vm := do
  let n ← h.toInt (← s.stk num).obj
  let (w, v) ← suVectorPopLoop s.world (← s.stk i) n.toNat
  { s with world := w }.pushValue v

end Vm

/-! ## The natives -/

/-- `vector` -/
def libVector : CFunction := fun s narg => do
  let s ← s.suVector narg
  pure (s, 1)

/-- `vector_length`: the length is computed and dropped. -/
def libVectorLength : CFunction := fun s narg => do
  s.suCheckArguments narg 1 [.vector]
  let _ ← s.suVectorLength 1
  pure (s, 1)

/-- `vector_index` -/
def libVectorIndex (h : Host) : CFunction := fun s narg => do
  s.suCheckArguments narg 2 [.vector, .number]
  let s ← s.suCopy 1
  let s ← s.suVectorIndex h 3
  pure (s, 1)

/-- `vector_set` -/
def libVectorSet (h : Host) : CFunction := fun s narg => do
  s.suCheckArguments narg 3 [.vector, .number, .nil]
  let s ← s.suCopy 2
  let s ← s.suCopy 2
  let s ← s.suVectorSet h 5
  pure (s, 1)

/-- `vector_push` -/
def libVectorPush : CFunction := fun s narg => do
  s.suCheckArguments narg (-1) [.vector]
  let s ← s.suVectorPush narg (narg - 1)
  pure (s, 1)

/-- `vector_pop` -/
def libVectorPop (h : Host) : CFunction := fun s narg => do
  s.suCheckArguments narg 2 [.vector, .number]
  let s ← s.suVectorPop h 2 1
  pure (s, 1)

/-! ## Vector objects -/

/-- The value is a vector of the elements `xs`. -/
structure HoldsVec (w : World) (v : Value) (xs : List Value) : Prop where
  type : v.type = .vector
  object : ∃ vec, vecObject w v = .ok vec ∧ VecRepresents vec xs

theorem vecObject_eq_ok {w : World} {v : Value} {vec : Vec} :
    vecObject w v = .ok vec ↔ w.object v.addr = .ok (.vector vec) := by
  rw [vecObject, Outcome.bind_eq_ok]
  constructor
  · rintro ⟨o, ho, h⟩
    cases o with
    | vector vec' => cases h; exact ho
    | _ => cases h
  · exact fun h => ⟨_, h, rfl⟩

theorem newVector_ok {w : World} {vec : Vec} {xs : List Value} (hr : VecRepresents vec xs)
    (hmem : w.objects.length + 1 < 2 ^ 64) :
    ∃ w' v, newVector w vec = .ok (w', v) ∧ w.Adds w' 1 ∧ HoldsVec w' v xs := by
  obtain ⟨w', halloc, hadds⟩ := adds_alloc (.vector vec) hmem
  refine ⟨w', objValue .vector (w.objects.length + 1), by rw [newVector, halloc]; rfl, hadds, rfl,
    vec, vecObject_eq_ok.mpr ?_, hr⟩
  rw [addr_objValue hmem]
  exact object_alloc_self halloc

theorem vectorPush_overflow {vec : Vec} {xs : List Value} (hr : VecRepresents vec xs)
    (x : Value) (hlen : 2 ^ 31 ≤ xs.length + 1) : vectorPush vec x = .fault := by
  obtain ⟨_, _, _, _, hcnt⟩ := hr
  rw [vectorPush, cntAdd_fault (by omega)]
  rfl

/-- The loop of pushes appends. -/
theorem suVectorPushLoop_ok : ∀ {ys : List Value} {w : World} {v : Value} {xs : List Value},
    HoldsVec w v xs → xs.length + ys.length < 2 ^ 31 →
    w.objects.length + ys.length < 2 ^ 64 →
    ∃ w' v', suVectorPushLoop w v ys = .ok (w', v') ∧ w.Extends w' ∧ HoldsVec w' v' (xs ++ ys)
  | [], w, v, xs, hv, _, _ => ⟨w, v, rfl, .rfl, by rwa [List.append_nil]⟩
  | y :: ys, w, v, xs, hv, hlen, hmem => by
      rw [List.length_cons] at hlen hmem
      obtain ⟨-, vec, hobj, hr⟩ := hv
      obtain ⟨vec', hpush, hr'⟩ := vectorPush_ok hr y (by omega)
      obtain ⟨w1, v1, hnew, hadds, hv1⟩ := newVector_ok hr' (w := w) (by omega)
      have hw1 := hadds.length
      have hlen1 : (xs ++ [y]).length = xs.length + 1 := List.length_append
      obtain ⟨w', v', hloop, hw', hv'⟩ := @suVectorPushLoop_ok ys w1 v1 _ hv1 (by omega) (by omega)
      refine ⟨w', v', ?_, hadds.objects.trans hw', by rwa [List.append_assoc] at hv'⟩
      rw [suVectorPushLoop, hobj, Outcome.ok_bind, hpush, Outcome.ok_bind, hnew]
      exact hloop

/-- The loop of pops takes elements off the end, and fails when there are
not as many. -/
theorem suVectorPopLoop_ok : ∀ {n : Nat} {w : World} {v : Value} {xs : List Value},
    HoldsVec w v xs → w.objects.length + xs.length < 2 ^ 64 →
    (n ≤ xs.length → ∃ w' v', suVectorPopLoop w v n = .ok (w', v') ∧ w.Extends w'
      ∧ HoldsVec w' v' (xs.take (xs.length - n)))
      ∧ (xs.length < n → (suVectorPopLoop w v n).Raises)
  | 0, w, v, xs, hv, _ => by
      refine ⟨fun _ => ⟨w, v, rfl, .rfl, ?_⟩, fun h => absurd h (Nat.not_lt_zero _)⟩
      rwa [Nat.sub_zero, List.take_length]
  | n + 1, w, v, xs, hv, hmem => by
      obtain ⟨-, vec, hobj, hr⟩ := hv
      by_cases hnil : xs = []
      · subst hnil
        refine ⟨fun h => absurd h (Nat.not_succ_le_zero _), fun _ => ?_⟩
        obtain ⟨msg, hmsg⟩ := vectorPop_empty hr
        exact ⟨msg, by rw [suVectorPopLoop, hobj, Outcome.ok_bind, hmsg]; rfl⟩
      obtain ⟨vec', hpop, hr'⟩ := vectorPop_ok hr hnil
      have hpos := List.length_pos_iff.mpr hnil
      obtain ⟨w1, v1, hnew, hadds, hv1⟩ := newVector_ok hr' (w := w) (by omega)
      have hw1 := hadds.length
      have hrun : suVectorPopLoop w v (n + 1) = suVectorPopLoop w1 v1 n := by
        rw [suVectorPopLoop, hobj, Outcome.ok_bind, hpop, Outcome.ok_bind, hnew]
        rfl
      obtain ⟨hok, hraise⟩ := @suVectorPopLoop_ok n w1 v1 _ hv1
        (by rw [List.length_dropLast]; omega)
      rw [List.length_dropLast] at hok hraise
      refine ⟨fun hle => ?_, fun hlt => hrun ▸ hraise (by omega)⟩
      obtain ⟨w', v', hloop, hw', hv'⟩ := hok (by omega)
      refine ⟨w', v', hrun.trans hloop, hadds.objects.trans hw', ?_⟩
      have hmin : min (xs.length - 1 - n) (xs.length - 1) = xs.length - (n + 1) := by omega
      rwa [List.dropLast_eq_take, List.take_take, hmin] at hv'

end Saurus
