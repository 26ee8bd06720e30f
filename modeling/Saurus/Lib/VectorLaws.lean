import Saurus.Lib.Vector

/-!
# What the vector natives do

Each native against the operation on lists it is named after. `vector`,
`vector-index` and `vector-set` do it. `vector-length` leaves its vector
where the length belongs, `vector-push` can be checked for one element at a
time only, and `vector-pop` takes a negative count for zero.
-/

namespace Saurus

open Basis

/-! ## Calls -/

/-- A call of one of the natives with its arguments. -/
inductive VecCall where
  | vector (xs : List Value)
  | length (v : Value)
  | index (v i : Value)
  | set (v i x : Value)
  | push (v : Value) (ys : List Value)
  | pop (v n : Value)

namespace VecCall

def native (h : Host) : VecCall → CFunction
  | .vector _ => libVector
  | .length _ => libVectorLength
  | .index _ _ => libVectorIndex h
  | .set _ _ _ => libVectorSet h
  | .push _ _ => libVectorPush
  | .pop _ _ => libVectorPop h

def args : VecCall → List Value
  | .vector xs => xs
  | .length v => [v]
  | .index v i => [v, i]
  | .set v i x => [v, i, x]
  | .push v ys => v :: ys
  | .pop v n => [v, n]

/-- The vector it is called on. -/
def subject : VecCall → Option Value
  | .vector _ => none
  | .length v | .index v _ | .set v _ _ | .push v _ | .pop v _ => some v

/-- The index or count it is called with. -/
def number : VecCall → Option Value
  | .index _ i | .set _ i _ | .pop _ i => some i
  | _ => none

/-- The arguments are well typed: the vector is one of the elements `xs`, as
many as an `int` counts, and the index or count a number. -/
structure WellTyped (w : World) (xs : List Value) (c : VecCall) : Prop where
  subject : ∀ v, c.subject = some v → HoldsVec w v xs
  count : xs.length < 2 ^ 31
  number : ∀ i, c.number = some i → i.type = .number

/-- The call is about to be made, with room for the copies of two arguments
and memory for its result. -/
structure Ready (s : Vm) (c : VecCall) : Prop where
  called : s.Called c.args
  room : s.stackTop + 2 ≤ stackSize
  memory : s.world.objects.length + 2 ^ 32 < 2 ^ 64

/-- A call with the index or count `o` is to give an answer where it is
within bounds, and to raise an error where it is not. A number that is no
`int` is outside of every vector. -/
def OnInt (o : Outcome Int) (p : Int → Prop) [DecidablePred p] (gives : Int → Prop)
    (raises : Prop) : Prop :=
  match o with
  | .ok k => if p k then gives k else raises
  | _ => raises

/-- The call does what it is to do with the elements `xs`. -/
def Meets (h : Host) (s : Vm) (xs : List Value) (c : VecCall) : Prop :=
  let gives := Vm.Gives (c.native h) s c.args.length
  let raises := Vm.CallRaises (c.native h) s c.args.length
  match c with
  | .vector ys => gives fun w v => HoldsVec w v ys
  | .length _ => gives fun _ v => v = ⟨.number, h.ofInt xs.length⟩
  | .index _ i =>
      OnInt (h.toInt i.obj) (fun k => 0 ≤ k ∧ k < xs.length)
        (fun k => gives fun _ v => xs[k.toNat]? = some v) raises
  | .set _ i x =>
      OnInt (h.toInt i.obj) (fun k => 0 ≤ k ∧ k < xs.length)
        (fun k => gives fun w v => HoldsVec w v (xs.set k.toNat x)) raises
  | .push _ ys => gives fun w v => HoldsVec w v (xs ++ ys)
  | .pop _ n =>
      OnInt (h.toInt n.obj) (fun k => 0 ≤ k ∧ k ≤ xs.length)
        (fun k => gives fun w v => HoldsVec w v (xs.take (xs.length - k.toNat))) raises

/-- When it does. -/
def Sound (h : Host) (xs : List Value) : VecCall → Prop
  | .vector _ => True
  | .length _ => False
  | .index _ i | .set _ i _ => h.toInt i.obj ≠ .fault
  | .push _ ys => ys.length ≤ 1 ∧ xs.length + ys.length < 2 ^ 31
  | .pop _ n => h.toInt n.obj ≠ .fault ∧ ∀ k, h.toInt n.obj = .ok k → 0 ≤ k

/-! ## One native after the other -/

section Natives

variable {h : Host} {s : Vm} {xs : List Value}

/-- The vector of a call. -/
theorem WellTyped.vec {c : VecCall} (ht : c.WellTyped s.world xs) {v : Value}
    (hv : c.subject = some v) : ∃ vec, vecObject s.world v = .ok vec ∧ VecRepresents vec xs :=
  (ht.subject v hv).object

theorem Ready.top {c : VecCall} (hs : c.Ready s) : c.args.length + 1 ≤ s.stackTop := hs.called.room

theorem Ready.free {c : VecCall} (hs : c.Ready s) : s.stackTop < stackSize := by
  have := hs.room
  omega

theorem meets_vector {ys : List Value} (hs : (vector ys).Ready s) : (vector ys).Meets h s xs := by
  have htop : ys.length + 1 ≤ s.stackTop := hs.top
  have hroom := hs.room
  have hmem := hs.memory
  unfold stackSize at hroom
  obtain ⟨w1, v1, hnew, hadds, hv1⟩ := newVector_ok (w := s.world) vecRepresents_empty (by omega)
  have hw1 := hadds.length
  obtain ⟨w, v, hloop, hw, hv⟩ := @suVectorPushLoop_ok ys w1 v1 [] hv1
    (by rw [List.length_nil]; omega) (by omega)
  have hargs : s.window (s.stackTop - ys.length) ys.length = ys := hs.called.args
  unfold Meets
  dsimp only
  refine Vm.gives_of_push (w := w) (v := v) Nat.one_ne_zero htop ?_ (hadds.objects.trans hw) hv
  change libVector s ys.length = _
  rw [libVector, Vm.suVector, hnew, Outcome.ok_bind]
  dsimp only
  rw [decide_eq_true (Nat.le_of_succ_le htop), Outcome.require_true, Outcome.ok_bind, hargs, hloop,
    Outcome.ok_bind]
  dsimp only
  rw [Vm.pushValue_ok (s := { s with world := w }) hs.free]
  rfl

/-- The vector is still on top of the stack when the native returns. -/
theorem not_meets_length {v : Value} (hs : (length v).Ready s)
    (ht : (length v).WellTyped s.world xs) : ¬ (length v).Meets h s xs := by
  obtain ⟨vec, hobj, -⟩ := ht.vec rfl
  have htop : 1 + 1 ≤ s.stackTop := hs.top
  have hstk : s.stk 1 = .ok v := hs.called.stk ⟨Nat.le_refl _, Nat.le_refl _⟩ rfl
  have hslot : s.stack (s.stackTop - 1) = v := by
    rw [Vm.stk, decide_eq_true (Nat.le_of_succ_le htop)] at hstk
    exact Outcome.ok.inj hstk
  have hf : libVectorLength s 1 = .ok (s, 1) := by
    rw [libVectorLength, show s.suCheckArguments 1 1 [.vector] = .ok () from Vm.fits_exact s _ _,
      Outcome.ok_bind, Vm.suVectorLength, hstk, Outcome.ok_bind, hobj]
    rfl
  have hp : s.Leaves s v :=
    ⟨Nat.le_of_succ_le htop, hslot, fun _ _ => rfl, fun _ _ ho => ho, rfl, rfl, rfl⟩
  intro hgives
  have hv : v = ⟨.number, h.ofInt xs.length⟩ :=
    Vm.Gives.pushed (P := fun _ v => v = ⟨.number, h.ofInt xs.length⟩) Nat.one_ne_zero htop hf hp
      hgives
  have htype := (ht.subject v rfl).type
  rw [hv] at htype
  cases htype

/-- A copy of `i` above `v` and `i`: the arguments of `su_vector_index`. -/
theorem suCopy_ok {s : Vm} {i : Nat} {v : Value} (hv : s.stk i = .ok v)
    (hroom : s.stackTop < stackSize) : s.suCopy i = .ok (s.push v) := by
  rw [Vm.suCopy, hv]
  exact Vm.pushValue_ok hroom v

section Index

variable {v i : Value} {vec : Vec}

theorem libVectorIndex_eq (hs : (index v i).Ready s) (hobj : vecObject s.world v = .ok vec) :
    libVectorIndex h s 2 = (do
      let x ← vectorIndex vec (← h.toInt i.obj)
      pure ({ s.push i with stack := Function.update (s.push i).stack s.stackTop x }, 1)) := by
  have hv : s.stk 2 = .ok v := hs.called.stk ⟨(by decide : 1 ≤ 2), Nat.le_refl _⟩ rfl
  have hi : s.stk 1 = .ok i := hs.called.stk ⟨Nat.le_refl 1, (by decide : 1 ≤ 2)⟩ rfl
  rw [libVectorIndex, show s.suCheckArguments 2 2 [.vector, .number] = .ok () from
    Vm.fits_exact s _ _, Outcome.ok_bind, suCopy_ok hi hs.free, Outcome.ok_bind, Vm.suVectorIndex,
    Vm.stk_push (by decide), hv, Outcome.ok_bind]
  change (vecObject s.world v >>= _) >>= _ = _
  rw [hobj, Outcome.ok_bind, Vm.stk_push_top, Outcome.ok_bind, Outcome.bind_assoc]
  refine bind_congr fun k => ?_
  rw [Outcome.bind_assoc]
  rfl

/-- An element written over the copy of its index. -/
theorem pushed_index (s : Vm) (i x : Value) :
    s.Leaves { s.push i with stack := Function.update (s.push i).stack s.stackTop x } x where
  stackTop := Nat.le_add_left ..
  value := Function.update_self ..
  below := fun _ hj =>
    (Function.update_of_ne (Nat.ne_of_lt hj) ..).trans (Function.update_of_ne (Nat.ne_of_lt hj) ..)
  objects := fun _ _ ho => ho
  frames := rfl
  frameTop := rfl
  func := rfl

/-- A native that begins with the number is undone by one that is no `int`,
and by nothing else as long as it is right about the others. -/
theorem onInt_iff {f : CFunction} {n : Nat} {o : Outcome Int} {g : Int → Outcome (Vm × Nat)}
    {p : Int → Prop} [DecidablePred p] {gives : Int → Prop} (hroom : n + 1 ≤ s.stackTop)
    (hf : f s n = o >>= g)
    (hok : ∀ k, o = .ok k → if p k then gives k else Vm.CallRaises f s n) :
    OnInt o p gives (Vm.CallRaises f s n) ↔ o ≠ .fault := by
  cases o with
  | ok k => exact iff_of_true (hok k rfl) fun hno => by cases hno
  | raise msg =>
      exact iff_of_true (Vm.callRaises_of hroom ⟨msg, hf⟩) fun hno => by cases hno
  | fault =>
      exact iff_of_false (Vm.not_gives_of_fault (P := fun _ _ => True) hroom hf).2
        fun hne => hne rfl

theorem meets_index_iff (hs : (index v i).Ready s) (ht : (index v i).WellTyped s.world xs) :
    (index v i).Meets h s xs ↔ (index v i).Sound h xs := by
  obtain ⟨vec, hobj, hr⟩ := ht.vec rfl
  have htop : 2 + 1 ≤ s.stackTop := hs.top
  have hf := libVectorIndex_eq (h := h) hs hobj
  refine onInt_iff (f := libVectorIndex h) htop hf fun k hk => ?_
  rw [hk, Outcome.ok_bind] at hf
  split_ifs with hin
  · have hlt : k.toNat < xs.length := by omega
    have hindex := vectorIndex_ok hr (List.getElem?_eq_getElem hlt)
    rw [Int.toNat_of_nonneg hin.1] at hindex
    rw [hindex] at hf
    exact Vm.gives_of_pushed Nat.one_ne_zero htop hf (pushed_index s i _)
      (List.getElem?_eq_getElem hlt)
  · obtain ⟨msg, hmsg⟩ := (vector_outside hr (i := k) (by omega)).1
    rw [hmsg] at hf
    exact Vm.callRaises_of htop ⟨msg, hf⟩

end Index

section Set

variable {v i x : Value} {vec : Vec}

theorem libVectorSet_eq (hs : (set v i x).Ready s) (hobj : vecObject s.world v = .ok vec) :
    libVectorSet h s 3 = (do
      let vec ← vectorSet vec (← h.toInt i.obj) x
      let (w, v) ← newVector s.world vec
      pure ({ (s.push i).push x with
        world := w
        stack := Function.update ((s.push i).push x).stack s.stackTop v
        stackTop := s.stackTop + 1 }, 1)) := by
  have hv : s.stk 3 = .ok v := hs.called.stk ⟨by decide, Nat.le_refl _⟩ rfl
  have hi : s.stk 2 = .ok i := hs.called.stk ⟨by decide, by simp [args]⟩ rfl
  have hx : s.stk 1 = .ok x := hs.called.stk ⟨Nat.le_refl _, by simp [args]⟩ rfl
  have hroom : (s.push i).stackTop < stackSize := hs.room
  rw [libVectorSet, show s.suCheckArguments 3 3 [.vector, .number, .nil] = .ok () from
    Vm.fits_exact s _ _, Outcome.ok_bind, suCopy_ok hi hs.free, Outcome.ok_bind,
    suCopy_ok ((Vm.stk_push (by decide)).trans hx) hroom, Outcome.ok_bind, Vm.suVectorSet,
    Vm.stk_push (by decide), Vm.stk_push (by decide), hv, Outcome.ok_bind]
  change (vecObject s.world v >>= _) >>= _ = _
  rw [hobj, Outcome.ok_bind, Vm.stk_push (by decide), Vm.stk_push_top, Outcome.ok_bind,
    Outcome.bind_assoc]
  refine bind_congr fun k => ?_
  rw [Vm.stk_push_top, Outcome.ok_bind, Outcome.bind_assoc]
  refine bind_congr fun vec' => ?_
  rw [Outcome.bind_assoc]
  rfl

/-- The new vector is written over the copy of the index, and the copy of the
value is left above it. -/
theorem pushed_set (s : Vm) (i x : Value) {w : World} (hw : s.world.Extends w) (v : Value) :
    s.Leaves { (s.push i).push x with
      world := w
      stack := Function.update ((s.push i).push x).stack s.stackTop v
      stackTop := s.stackTop + 1 } v where
  stackTop := Nat.le_add_left ..
  value := Function.update_self ..
  below := fun j hj => by
    have hne := Nat.ne_of_lt hj
    have hne' : j ≠ s.stackTop + 1 := Nat.ne_of_lt (Nat.lt_succ_of_lt hj)
    exact (Function.update_of_ne hne ..).trans
      ((Function.update_of_ne hne' ..).trans (Function.update_of_ne hne ..))
  objects := hw
  frames := rfl
  frameTop := rfl
  func := rfl

theorem meets_set_iff (hs : (set v i x).Ready s) (ht : (set v i x).WellTyped s.world xs) :
    (set v i x).Meets h s xs ↔ (set v i x).Sound h xs := by
  obtain ⟨vec, hobj, hr⟩ := ht.vec rfl
  have htop : 3 + 1 ≤ s.stackTop := hs.top
  have hmem := hs.memory
  have hf := libVectorSet_eq (h := h) hs hobj
  refine onInt_iff (f := libVectorSet h) htop hf fun k hk => ?_
  rw [hk, Outcome.ok_bind] at hf
  split_ifs with hin
  · obtain ⟨vec', hset, hr'⟩ := vectorSet_ok hr (show k.toNat < xs.length by omega) x
    rw [Int.toNat_of_nonneg hin.1] at hset
    obtain ⟨w, v', hnew, hadds, hv'⟩ := newVector_ok (w := s.world) hr' (by omega)
    rw [hset, Outcome.ok_bind, hnew] at hf
    exact Vm.gives_of_pushed Nat.one_ne_zero htop hf (pushed_set s i x hadds.objects v') hv'
  · obtain ⟨msg, hmsg⟩ := (vector_outside hr (i := k) (by omega)).2 x
    rw [hmsg] at hf
    exact Vm.callRaises_of htop ⟨msg, hf⟩

end Set

section Push

variable {v : Value} {ys : List Value}

/-- The check takes one type for every pushed element, and is given one. -/
theorem suCheckArguments_push (hs : (push v ys).Ready s) (hv : v.type = .vector) :
    s.suCheckArguments (ys.length + 1) (-1) [.vector]
      = if ys.length ≤ 1 then .ok () else .fault := by
  have hargs : s.args (ys.length + 1) = v :: ys := hs.called.args
  have hspec := @Vm.checkArgs_spec _ _ 1 [.vector] hs.called.calledWith
    (by decide) rfl (Nat.le_add_left ..)
  have hfits : s.Fits (ys.length + 1) (min (ys.length + 1 - 1) 1) [.vector] := by
    refine Vm.Fits.mono (Nat.min_le_right ..) ?_
    rw [Vm.Fits, hargs]
    exact .cons (Or.inr (by rw [hv]; rfl)) .nil
  rw [Vm.suCheckArguments, if_pos (by omega), if_pos (by decide), if_neg (by simp)]
  exact hspec.1 hfits

theorem meets_push_iff (hs : (push v ys).Ready s) (ht : (push v ys).WellTyped s.world xs) :
    (push v ys).Meets h s xs ↔ (push v ys).Sound h xs := by
  have hv := ht.subject v rfl
  have htop : ys.length + 1 + 1 ≤ s.stackTop := hs.top
  have hroom := hs.room
  have hmem := hs.memory
  unfold stackSize at hroom
  have hstk : s.stk (ys.length + 1) = .ok v :=
    hs.called.stk ⟨Nat.le_add_left .., Nat.le_refl _⟩ (by simp [args])
  have hwindow : s.window (s.stackTop - ys.length) ys.length = ys := by
    have hargs : s.args (ys.length + 1) = v :: ys := hs.called.args
    rw [Vm.args, Vm.window, slice_succ] at hargs
    have hbase : s.stackTop - ys.length = s.stackTop - (ys.length + 1) + 1 := by omega
    rw [Vm.window, hbase]
    exact (List.cons.inj hargs).2
  have hf : libVectorPush s (ys.length + 1) = (do
      s.suCheckArguments (ys.length + 1) (-1) [.vector]
      let (w, v) ← suVectorPushLoop s.world v ys
      let s ← { s with world := w }.pushValue v
      pure (s, 1)) := by
    rw [libVectorPush, Vm.suVectorPush, Nat.add_sub_cancel, hstk, hwindow,
      decide_eq_true (show ys.length ≤ s.stackTop by omega)]
    exact bind_congr fun _ => Outcome.bind_assoc (suVectorPushLoop s.world v ys) _ _
  change Vm.Gives libVectorPush s (ys.length + 1) (fun w v => HoldsVec w v (xs ++ ys)) ↔ _
  rw [suCheckArguments_push hs hv.type] at hf
  by_cases hfew : ys.length ≤ 1
  · rw [if_pos hfew, Outcome.ok_bind] at hf
    by_cases hlen : xs.length + ys.length < 2 ^ 31
    · obtain ⟨w, v', hloop, hw, hv'⟩ := suVectorPushLoop_ok hv hlen (by omega)
      rw [hloop, Outcome.ok_bind] at hf
      dsimp only at hf
      rw [Vm.pushValue_ok (s := { s with world := w }) hs.free] at hf
      exact iff_of_true (Vm.gives_of_push Nat.one_ne_zero htop hf hw hv') ⟨hfew, hlen⟩
    · -- one element more than an `int` counts
      have hcount := ht.count
      obtain ⟨y, rfl⟩ := List.length_eq_one_iff.mp (show ys.length = 1 by omega)
      obtain ⟨vec, hobj, hr⟩ := hv.object
      rw [suVectorPushLoop, hobj, Outcome.ok_bind, vectorPush_overflow hr y (by omega)] at hf
      exact iff_of_false (Vm.not_gives_of_fault htop hf).1 fun hsound => hlen hsound.2
  · rw [if_neg hfew] at hf
    exact iff_of_false (Vm.not_gives_of_fault htop hf).1 fun hsound => hfew hsound.1

end Push

section Pop

variable {v n : Value}

theorem meets_pop_iff (hs : (pop v n).Ready s) (ht : (pop v n).WellTyped s.world xs) :
    (pop v n).Meets h s xs ↔ (pop v n).Sound h xs := by
  have hv := ht.subject v rfl
  have htop : 2 + 1 ≤ s.stackTop := hs.top
  have hmem := hs.memory
  have hcount := ht.count
  have hv2 : s.stk 2 = .ok v := hs.called.stk ⟨(by decide : 1 ≤ 2), Nat.le_refl _⟩ rfl
  have hn : s.stk 1 = .ok n := hs.called.stk ⟨Nat.le_refl 1, (by decide : 1 ≤ 2)⟩ rfl
  have hf : libVectorPop h s 2 = (do
      let k ← h.toInt n.obj
      let (w, v) ← suVectorPopLoop s.world v k.toNat
      let s ← { s with world := w }.pushValue v
      pure (s, 1)) := by
    rw [libVectorPop, show s.suCheckArguments 2 2 [.vector, .number] = .ok () from
      Vm.fits_exact s _ _, Outcome.ok_bind, Vm.suVectorPop, hn, hv2, Outcome.ok_bind,
      Outcome.bind_assoc]
    exact bind_congr fun k => Outcome.bind_assoc (suVectorPopLoop s.world v k.toNat) _ _
  have hpop : ∀ k : Int, h.toInt n.obj = .ok k →
      (k.toNat ≤ xs.length → Vm.Gives (libVectorPop h) s 2
        fun w v => HoldsVec w v (xs.take (xs.length - k.toNat)))
      ∧ (xs.length < k.toNat → Vm.CallRaises (libVectorPop h) s 2) := by
    intro k hk
    rw [hk, Outcome.ok_bind] at hf
    obtain ⟨hok, hraise⟩ := @suVectorPopLoop_ok k.toNat _ _ _ hv (by omega)
    refine ⟨fun hle => ?_, fun hlt => ?_⟩
    · obtain ⟨w, v', hloop, hw, hv'⟩ := hok hle
      rw [hloop, Outcome.ok_bind] at hf
      dsimp only at hf
      rw [Vm.pushValue_ok (s := { s with world := w }) hs.free] at hf
      exact Vm.gives_of_push Nat.one_ne_zero htop hf hw hv'
    · obtain ⟨msg, hmsg⟩ := hraise hlt
      rw [hmsg] at hf
      exact Vm.callRaises_of htop ⟨msg, hf⟩
  by_cases hneg : ∀ k, h.toInt n.obj = .ok k → 0 ≤ k
  · refine Iff.trans (onInt_iff (f := libVectorPop h) htop hf fun k hk => ?_)
      ⟨fun hne => ⟨hne, hneg⟩, fun hsound => hsound.1⟩
    have hk0 := hneg k hk
    split_ifs with hin
    · exact (hpop k hk).1 (by omega)
    · exact (hpop k hk).2 (by omega)
  · -- the loop does not run, and the vector itself is the answer
    obtain ⟨k, hk, hlt⟩ : ∃ k, h.toInt n.obj = .ok k ∧ k < 0 := by
      simpa only [not_forall, not_le, exists_prop] using hneg
    refine iff_of_false (fun hmeets => ?_) fun hsound => hneg hsound.2
    simp only [Meets, OnInt, hk, if_neg (not_and_of_not_left _ (not_le.mpr hlt))] at hmeets
    exact ((hpop k hk).1 (by omega)).not_raises hmeets

end Pop

end Natives

end VecCall

/-! ## All of them -/

/-- **The vector natives.** A well-typed call does what it is to do on a list
exactly when it is sound. -/
theorem vector_natives_iff {h : Host} {s : Vm} {xs : List Value} {c : VecCall} (hs : c.Ready s)
    (ht : c.WellTyped s.world xs) : c.Meets h s xs ↔ c.Sound h xs := by
  cases c with
  | vector ys => exact iff_of_true (VecCall.meets_vector hs) trivial
  | length v => exact iff_of_false (VecCall.not_meets_length hs ht) fun h => h
  | index v i => exact VecCall.meets_index_iff hs ht
  | set v i x => exact VecCall.meets_set_iff hs ht
  | push v ys => exact VecCall.meets_push_iff hs ht
  | pop v n => exact VecCall.meets_pop_iff hs ht

/-- A host that converts the doubles 2.0, 1.0 and -1.0. -/
def unitHost : Host :=
  { idleHost with
    toInt := fun x =>
      if x = 0x4000000000000000#64 then .ok 2
      else if x = 0x3ff0000000000000#64 then .ok 1
      else if x = 0xbff0000000000000#64 then .ok (-1)
      else .fault
    ofInt := fun i => if i = 1 then 0x3ff0000000000000#64 else 0#64 }

/-- A native at the bottom of the stack and its arguments above it, in a
world whose only object is the vector of `xs`, which its tail holds. -/
def vecState (xs args : List Value) : Vm where
  world := ⟨[.vector ⟨xs.length, 5, [], xs.map .leaf⟩], mapCreateEmpty, 0, 0, 0⟩
  stack := fun i => (⟨.nativefunc, 0x401000#64⟩ :: args).getD i ⟨.nil, 0#64⟩
  stackTop := args.length + 1
  frames := fun _ => ⟨⟨0, .mk [] [] [] [] [] [], [], []⟩, 0, 0⟩
  frameTop := 0
  func := ⟨0, .mk [] [] [] [] [] [], [], []⟩
  pc := 0

theorem vecState_ready {xs : List Value} {c : VecCall} (hlen : c.args.length < 100)
    (hnamed : ∀ v ∈ c.args, v.type ≠ .inv) : c.Ready (vecState xs c.args) where
  called := Vm.called_of_stack rfl rfl hnamed
  room := by
    change c.args.length + 1 + 2 ≤ 512
    omega
  memory := by
    change 1 + 2 ^ 32 < 2 ^ 64
    decide

/-- Up to 32 elements stand in the tail alone. -/
theorem vecState_wellTyped {xs : List Value} {c : VecCall} (hfew : xs.length ≤ 32)
    (hv : ∀ v, c.subject = some v → v = ⟨.vector, 1#64⟩)
    (hi : ∀ i, c.number = some i → i.type = .number) :
    c.WellTyped (vecState xs c.args).world xs where
  subject := fun v hsub => by
    rw [hv v hsub]
    exact ⟨rfl, _, rfl, 0, xs, ⟨rfl, rfl, hfew, Or.inr ⟨rfl, rfl⟩,
      fun h => absurd h (Nat.lt_irrefl 0), fun _ => rfl⟩, rfl, rfl⟩
  count := by omega
  number := hi

/-- `(vector-pop [nil 1 nil] 2)` is the vector of the first nil. -/
theorem vector_natives_pop_two :
    (VecCall.pop ⟨.vector, 1#64⟩ ⟨.number, 0x4000000000000000#64⟩).Meets unitHost
      (vecState [⟨.nil, 0#64⟩, ⟨.number, 0x3ff0000000000000#64⟩, ⟨.nil, 0#64⟩]
        [⟨.vector, 1#64⟩, ⟨.number, 0x4000000000000000#64⟩])
      [⟨.nil, 0#64⟩, ⟨.number, 0x3ff0000000000000#64⟩, ⟨.nil, 0#64⟩] := by
  let c := VecCall.pop ⟨.vector, 1#64⟩ ⟨.number, 0x4000000000000000#64⟩
  refine (vector_natives_iff (c := c) (vecState_ready (c := c) (by decide) (by decide))
    (vecState_wellTyped (c := c) (by decide)
      (fun v hv => (Option.some.inj hv).symm) fun i hi => (Option.some.inj hi) ▸ rfl)).mpr
      ⟨fun h => ?_, fun k hk => ?_⟩
  · cases h
  · cases hk
    decide

/-- On the vector of one nil `vector-length` gives the vector, `vector-pop` takes
-1 for 0, and `vector-push` of two elements has no meaning. -/
theorem vector_natives_fail :
    ¬ (VecCall.length ⟨.vector, 1#64⟩).Meets unitHost
        (vecState [⟨.nil, 0#64⟩] [⟨.vector, 1#64⟩]) [⟨.nil, 0#64⟩]
      ∧ ¬ (VecCall.pop ⟨.vector, 1#64⟩ ⟨.number, 0xbff0000000000000#64⟩).Meets unitHost
        (vecState [⟨.nil, 0#64⟩] [⟨.vector, 1#64⟩, ⟨.number, 0xbff0000000000000#64⟩])
        [⟨.nil, 0#64⟩]
      ∧ ¬ (VecCall.push ⟨.vector, 1#64⟩ [⟨.nil, 0#64⟩, ⟨.nil, 0#64⟩]).Meets unitHost
        (vecState [⟨.nil, 0#64⟩] [⟨.vector, 1#64⟩, ⟨.nil, 0#64⟩, ⟨.nil, 0#64⟩]) [⟨.nil, 0#64⟩] := by
  refine ⟨?_, ?_, ?_⟩
  · let c := VecCall.length ⟨.vector, 1#64⟩
    exact VecCall.not_meets_length (vecState_ready (c := c) (by decide) (by decide))
      (vecState_wellTyped (c := c) (by decide) (fun v hv => (Option.some.inj hv).symm)
        fun i hi => by cases hi)
  · let c := VecCall.pop ⟨.vector, 1#64⟩ ⟨.number, 0xbff0000000000000#64⟩
    intro hmeets
    obtain ⟨-, hnonneg⟩ :=
      (VecCall.meets_pop_iff (vecState_ready (c := c) (by decide) (by decide))
        (vecState_wellTyped (c := c) (by decide) (fun v hv => (Option.some.inj hv).symm)
          fun i hi => (Option.some.inj hi) ▸ rfl)).mp hmeets
    exact absurd (hnonneg (-1) rfl) (by decide)
  · let c := VecCall.push ⟨.vector, 1#64⟩ [⟨.nil, 0#64⟩, ⟨.nil, 0#64⟩]
    intro hmeets
    obtain ⟨hfew, -⟩ :=
      (VecCall.meets_push_iff (vecState_ready (c := c) (by decide) (by decide))
        (vecState_wellTyped (c := c) (by decide) (fun v hv => (Option.some.inj hv).symm)
          fun i hi => by cases hi)).mp hmeets
    exact absurd hfew (by decide)

end Saurus
