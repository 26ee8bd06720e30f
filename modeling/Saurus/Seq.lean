import Saurus.Lib.Vector

/-!
# Sequences

A sequence is a chain of cells, or an iterator over the elements of a vector
or the characters of a string. `Walks` is the loop every user of sequences
has: `seq_first` and then `seq_rest`, until that is nil. What such a walk
meets is settled when it starts (`Walks.unique`).

An iterator has a table of two functions, and both kinds are given the one
for vectors, which reads the characters of a string as a `vector_t`.
-/

namespace Saurus

open Basis

/-! ## Cells and iterators -/

/-- `seq_first`. The iterator of a string has the functions of that of a
vector. -/
def seqFirst (w : World) (v : Value) : Outcome Value := do
  match ← w.object v.addr with
  | .cell first _ => pure first
  | .iterator idx obj => do
      match ← w.object obj with
      | .vector vec => vectorIndex vec idx
      | _ => .fault
  | _ => .fault

/-- `seq_rest` -/
def seqRest (junk : Nat → BitVec 64) (w : World) (v : Value) : Outcome (World × Value) := do
  match ← w.object v.addr with
  | .cell _ rest => pure (w, rest)
  | .iterator idx obj => do
      match ← w.object obj with
      | .vector vec =>
          if (idx + 1 : Int) = vec.cnt then
            let (w, obj) := drawJunk junk w
            pure (w, ⟨.nil, obj⟩)
          else do
            let (w, a) ← w.alloc (.iterator (idx + 1) obj)
            pure (w, objValue .itSeq a)
      | _ => .fault
  | _ => .fault

/-- `cell_create_array`, from the last value to the first. -/
def cellCreateArray (junk : Nat → BitVec 64) (w : World) : List Value → Outcome (World × Value)
  | [] =>
      let (w, obj) := drawJunk junk w
      pure (w, ⟨.nil, obj⟩)
  | v :: vs => do
      let (w, rest) ← cellCreateArray junk w vs
      let (w, a) ← w.alloc (.cell v rest)
      pure (w, objValue .cellSeq a)

/-- `it_create_vector` -/
def itCreateVector (junk : Nat → BitVec 64) (w : World) (a : ObjAddr) (vec : Vec) :
    Outcome (World × Value) :=
  if vec.cnt = 0 then
    let (w, obj) := drawJunk junk w
    pure (w, ⟨.nil, obj⟩)
  else do
    let (w, it) ← w.alloc (.iterator 0 a)
    pure (w, objValue .itSeq it)

/-- `it_create_string`, `size` counting the NUL. -/
def itCreateString (junk : Nat → BitVec 64) (w : World) (a : ObjAddr) (str : List Byte) :
    Outcome (World × Value) :=
  if str.length ≤ 1 then
    let (w, obj) := drawJunk junk w
    pure (w, ⟨.nil, obj⟩)
  else do
    let (w, it) ← w.alloc (.iterator 0 a)
    pure (w, objValue .itSeq it)

namespace Vm

/-- `su_first(s, -i)` -/
def suFirst (s : Vm) (i : Nat) : Outcome Vm := do
  let v ← s.stk i
  s.pushValue (← seqFirst s.world v)

/-- `su_rest(s, -i)` -/
def suRest (h : Host) (s : Vm) (i : Nat) : Outcome Vm := do
  let v ← s.stk i
  let (w, r) ← seqRest h.junk s.world v
  { s with world := w }.pushValue r

/-- `su_list` -/
def suList (h : Host) (s : Vm) (num : Nat) : Outcome Vm := do
  Outcome.require (decide (num ≤ s.stackTop))
  let (w, v) ← cellCreateArray h.junk s.world (s.args num)
  { s with world := w }.pushValue v

/-- `su_seq(s, -i)` -/
def suSeq (h : Host) (s : Vm) (i : Nat) : Outcome Vm := do
  let seq ← s.stk i
  let (w, v) ←
    match seq.type.suType with
    | .vector => do
        match ← s.world.object seq.addr with
        | .vector vec => itCreateVector h.junk s.world seq.addr vec
        | _ => .fault
    | .map => .raise "Not implemented!"
    | .string => do
        match ← s.world.object seq.addr with
        | .string _ str => itCreateString h.junk s.world seq.addr str
        | _ => .fault
    | .seq => pure (s.world, seq)
    | _ => do
        let name ← typeName seq.type
        .raise ("Can't sequence object of type: " ++ name)
  { s with world := w }.pushValue v

end Vm

/-! ## Walks -/

/-- `seq_first` and `seq_rest` from `v` on, until nil: the values met, and the
world then. -/
inductive Walks (junk : Nat → BitVec 64) : World → Value → List Value → World → Prop where
  | done {w : World} {v : Value} : v.type = .nil → Walks junk w v [] w
  | step {w w1 w' : World} {v x rest : Value} {xs : List Value} : v.type ≠ .nil →
      seqFirst w v = .ok x → seqRest junk w v = .ok (w1, rest) → Walks junk w1 rest xs w' →
      Walks junk w v (x :: xs) w'

variable {junk : Nat → BitVec 64} {w w' : World}

theorem Walks.unique {v : Value} {xs ys : List Value} {w1 w2 : World} (hx : Walks junk w v xs w1)
    (hy : Walks junk w v ys w2) : xs = ys ∧ w1 = w2 := by
  induction hx generalizing ys w2 with
  | done hnil =>
      cases hy with
      | done => exact ⟨rfl, rfl⟩
      | step hne => exact absurd hnil hne
  | step hne hfirst hrest _ ih =>
      cases hy with
      | done hnil => exact absurd hnil hne
      | step _ hfirst' hrest' hwalk =>
          cases hfirst.symm.trans hfirst'
          cases hrest.symm.trans hrest'
          obtain ⟨rfl, rfl⟩ := ih hwalk
          exact ⟨rfl, rfl⟩

/-- Cells that are there are walked without making anything. -/
theorem walks_cell {v x rest : Value} {xs : List Value} (htype : v.type = .cellSeq)
    (hobj : w.object v.addr = .ok (.cell x rest)) (hrest : Walks junk w rest xs w') :
    Walks junk w v (x :: xs) w' := by
  refine .step (by rw [htype]; nofun) ?_ ?_ hrest
  · rw [seqFirst, hobj]
    rfl
  · rw [seqRest, hobj]
    rfl

/-- A chain of cells in `w` goes through `xs`, and it ends in nil. -/
def Chained (w : World) : Value → List Value → Prop
  | v, [] => v.type = .nil
  | v, x :: xs => v.type = .cellSeq ∧ ∃ rest, w.object v.addr = .ok (.cell x rest)
      ∧ Chained w rest xs

theorem Chained.extends (hw : w.Extends w') : ∀ {xs : List Value} {v : Value}, Chained w v xs →
    Chained w' v xs
  | [], _, h => h
  | _ :: _, _, ⟨htype, rest, hobj, hrest⟩ => ⟨htype, rest, hw _ _ hobj, hrest.extends hw⟩

theorem Chained.walks : ∀ {xs : List Value} {v : Value}, Chained w v xs → Walks junk w v xs w
  | [], _, h => .done h
  | _ :: _, _, ⟨htype, _, hobj, hrest⟩ => walks_cell htype hobj hrest.walks

theorem cellCreateArray_chained (junk : Nat → BitVec 64) : ∀ (vs : List Value),
    w.objects.length + vs.length < 2 ^ 64 → ∃ w' v, cellCreateArray junk w vs = .ok (w', v)
      ∧ w.Adds w' vs.length ∧ Chained w' v vs
  | [], _ => ⟨(drawJunk junk w).1, _, rfl, ⟨fun _ _ h => h, rfl, rfl⟩, rfl⟩
  | v :: vs, hroom => by
      rw [List.length_cons] at hroom
      obtain ⟨w1, rest, hrun, hadds, hrest⟩ := cellCreateArray_chained junk vs (by omega)
      obtain ⟨w2, halloc, hadd⟩ := adds_alloc (w := w1) (.cell v rest)
        (by rw [hadds.length]; omega)
      refine ⟨w2, objValue .cellSeq (w1.objects.length + 1), ?_, hadds.trans hadd, rfl, rest, ?_,
        hrest.extends hadd.objects⟩
      · rw [cellCreateArray, hrun, Outcome.ok_bind]
        dsimp only
        rw [halloc]
        rfl
      · rw [addr_objValue (by rw [hadds.length]; omega)]
        exact object_alloc_self halloc

/-! ## Proper sequences -/

/-- The proper sequence of `xs`: cells that end in nil or in an iterator of a
vector. -/
inductive SeqOf (w : World) : Value → List Value → Prop where
  | nil {v : Value} : v.type = .nil → SeqOf w v []
  | cell {v x rest : Value} {xs : List Value} : v.type = .cellSeq →
      w.object v.addr = .ok (.cell x rest) → SeqOf w rest xs → SeqOf w v (x :: xs)
  | iterator {v : Value} {i : Nat} {a : ObjAddr} {vec : Vec} {xs ys : List Value} :
      v.type = .itSeq → w.object v.addr = .ok (.iterator i a) → w.object a = .ok (.vector vec) →
      VecRepresents vec xs → i < xs.length → ys = xs.drop i → SeqOf w v ys

theorem SeqOf.extends {v : Value} {xs : List Value} (hw : w.Extends w') (h : SeqOf w v xs) :
    SeqOf w' v xs := by
  induction h with
  | nil htype => exact .nil htype
  | cell htype hobj _ ih => exact .cell htype (hw _ _ hobj) ih
  | iterator htype hit hvec hr hi hys =>
      exact .iterator htype (hw _ _ hit) (hw _ _ hvec) hr hi hys

theorem SeqOf.type_nil {v : Value} (h : SeqOf w v []) : v.type = .nil := by
  cases h with
  | nil htype => exact htype
  | iterator _ _ _ _ hi hys =>
      have := congrArg List.length hys
      rw [List.length_drop, List.length_nil] at this
      omega

theorem SeqOf.type_seq {v x : Value} {xs : List Value} (h : SeqOf w v (x :: xs)) :
    v.type.suType = .seq := by
  cases h with
  | cell htype => rw [htype]; rfl
  | iterator htype => rw [htype]; rfl

theorem SeqOf.first {v x : Value} {xs : List Value} (h : SeqOf w v (x :: xs)) :
    seqFirst w v = .ok x := by
  cases h with
  | cell _ hobj =>
      rw [seqFirst, hobj]
      rfl
  | iterator _ hit hvec hr hi hys =>
      rw [List.drop_eq_getElem_cons hi] at hys
      rw [seqFirst, hit, Outcome.ok_bind]
      simp only [hvec, Outcome.ok_bind]
      rw [(List.cons.inj hys).1]
      exact vectorIndex_ok hr (List.getElem?_eq_getElem hi)

/-- The rest of an iterator is a new object. -/
theorem SeqOf.rest (junk : Nat → BitVec 64) {v x : Value} {xs : List Value}
    (h : SeqOf w v (x :: xs))
    (hmem : w.objects.length + 1 < 2 ^ 64) :
    ∃ w1 r, seqRest junk w v = .ok (w1, r) ∧ w.Extends w1
      ∧ w1.objects.length ≤ w.objects.length + 1 ∧ SeqOf w1 r xs := by
  cases h with
  | @cell _ _ rest _ _ hobj hrest =>
      refine ⟨w, rest, ?_, .rfl, Nat.le_succ _, hrest⟩
      rw [seqRest, hobj]
      rfl
  | @iterator _ i a vec ys _ htype hit hvec hr hi hys =>
      obtain ⟨-, -, -, -, hcnt⟩ := id hr
      rw [List.drop_eq_getElem_cons hi] at hys
      have hxs := (List.cons.inj hys).2
      by_cases hlast : (i + 1 : Int) = vec.cnt
      · refine ⟨(drawJunk junk w).1, ⟨.nil, (drawJunk junk w).2⟩, ?_, fun _ _ h => h,
          Nat.le_succ _, ?_⟩
        · rw [seqRest, hit, Outcome.ok_bind]
          simp only [hvec, Outcome.ok_bind]
          rw [if_pos hlast]
          rfl
        · rw [hxs, List.drop_of_length_le (by omega)]
          exact .nil rfl
      · obtain ⟨w1, halloc, hadds⟩ := adds_alloc (w := w) (.iterator (i + 1) a) hmem
        refine ⟨w1, objValue .itSeq (w.objects.length + 1), ?_, hadds.objects,
          Nat.le_of_eq hadds.length, ?_⟩
        · rw [seqRest, hit, Outcome.ok_bind]
          simp only [hvec, Outcome.ok_bind]
          rw [if_neg hlast, halloc]
          rfl
        · refine .iterator rfl ?_ (hadds.objects _ _ hvec) hr (by omega) hxs
          rw [addr_objValue hmem]
          exact object_alloc_self halloc

/-- A proper sequence is walked through. -/
theorem SeqOf.walks (junk : Nat → BitVec 64) : ∀ {xs : List Value} {w : World} {v : Value},
    SeqOf w v xs → w.objects.length + xs.length < 2 ^ 64 → ∃ w', Walks junk w v xs w'
  | [], w, _, h, _ => ⟨w, .done h.type_nil⟩
  | x :: xs, w, v, h, hmem => by
      rw [List.length_cons] at hmem
      obtain ⟨w1, r, hrest, -, hlen, hseq⟩ := h.rest junk (by omega)
      obtain ⟨w', hwalk⟩ := hseq.walks junk (by omega)
      refine ⟨w', .step (fun hnil => ?_) h.first hrest hwalk⟩
      have := h.type_seq
      rw [hnil] at this
      cases this

/-! ## Iterators -/

theorem itCreateVector_walks (junk : Nat → BitVec 64) {vec : Vec} {xs : List Value} {a : ObjAddr}
    (hr : VecRepresents vec xs) (hvec : w.object a = .ok (.vector vec))
    (hmem : w.objects.length + xs.length + 1 < 2 ^ 64) :
    ∃ w1 v w', itCreateVector junk w a vec = .ok (w1, v) ∧ Walks junk w1 v xs w' := by
  obtain ⟨-, -, -, -, hcnt⟩ := id hr
  by_cases hnil : xs = []
  · subst hnil
    refine ⟨(drawJunk junk w).1, ⟨.nil, (drawJunk junk w).2⟩, (drawJunk junk w).1, ?_, .done rfl⟩
    have hcnt : vec.cnt = 0 := hcnt
    rw [itCreateVector, if_pos hcnt]
    rfl
  · have hpos := List.length_pos_iff.mpr hnil
    obtain ⟨w1, halloc, hadds⟩ := adds_alloc (w := w) (.iterator 0 a) (by omega)
    have hit : w1.object (objValue .itSeq (w.objects.length + 1)).addr = .ok (.iterator 0 a) := by
      rw [addr_objValue (show w.objects.length + 1 < 2 ^ 64 by omega)]
      exact object_alloc_self halloc
    have hseq : SeqOf w1 (objValue .itSeq (w.objects.length + 1)) xs :=
      .iterator rfl hit (hadds.objects _ _ hvec) hr hpos rfl
    obtain ⟨w', hwalk⟩ := hseq.walks junk (by have := hadds.length; omega)
    refine ⟨w1, objValue .itSeq (w.objects.length + 1), w', ?_, hwalk⟩
    rw [itCreateVector, if_neg (show ¬ vec.cnt = 0 by omega), halloc]
    rfl

/-- An iterator of a string is walked as one of a vector. -/
theorem not_walks_string {it : Value} {i : Nat} {a : ObjAddr} {hash : BitVec 32} {str : List Byte}
    (htype : it.type = .itSeq) (hit : w.object it.addr = .ok (.iterator i a))
    (hstr : w.object a = .ok (.string hash str)) (xs : List Value) :
    ¬ Walks junk w it xs w' := by
  intro hwalk
  cases hwalk with
  | done hnil =>
      rw [htype] at hnil
      cases hnil
  | step _ hfirst =>
      rw [seqFirst, hit, Outcome.ok_bind] at hfirst
      simp only [hstr] at hfirst
      cases hfirst

/-! ## Sources -/

/-- The value is the string of the characters `cs`. -/
def HoldsString (w : World) (v : Value) (cs : List Byte) : Prop :=
  v.type = .string ∧ ∃ hash, w.object v.addr = .ok (.string hash (cs ++ [0#8]))

/-- What a sequence is made of: what lies at `STK(-i)`, or the values on top of
the stack. -/
inductive SeqSource where
  | vector (i : Nat) (xs : List Value)
  | string (i : Nat) (cs : List Byte)
  | list (xs : List Value)

namespace SeqSource

variable {h : Host} {s : Vm}

/-- The source is on the stack. -/
def Given (s : Vm) : SeqSource → Prop
  | vector i xs => ∃ v, s.stk i = .ok v ∧ HoldsVec s.world v xs
  | string i cs => ∃ v, s.stk i = .ok v ∧ HoldsString s.world v cs
  | list xs => xs ≠ [] ∧ xs.length ≤ s.stackTop ∧ s.args xs.length = xs

/-- `su_seq`, or `su_list`. -/
def start (h : Host) (s : Vm) : SeqSource → Outcome Vm
  | vector i _ => s.suSeq h i
  | string i _ => s.suSeq h i
  | list xs => s.suList h xs.length

def length : SeqSource → Nat
  | vector _ xs => xs.length
  | string _ cs => cs.length
  | list xs => xs.length

/-- What a walk is to meet. -/
def Meets (w : World) (vs : List Value) : SeqSource → Prop
  | vector _ xs => vs = xs
  | string _ cs => List.Forall₂ (fun c v => HoldsString w v [c]) cs vs
  | list xs => vs = xs

/-- The walk of the new sequence meets the elements of the source. -/
def Enumerates (h : Host) (s : Vm) (src : SeqSource) : Prop :=
  ∃ s1 v vs w', src.start h s = .ok s1 ∧ s1.stk 1 = .ok v ∧ Walks h.junk s1.world v vs w'
    ∧ src.Meets w' vs

theorem pushValue_top (hroom : s.stackTop < stackSize) (w : World) (v : Value) :
    ∃ s1, Vm.pushValue { s with world := w } v = .ok s1 ∧ s1.stk 1 = .ok v ∧ s1.world = w := by
  have hroom : ({ s with world := w } : Vm).stackTop < stackSize := hroom
  exact ⟨Vm.push { s with world := w } v, Vm.pushValue_ok hroom v, Vm.stk_push_top .., rfl⟩

/-- What is made of a source is pushed, and that is walked. -/
theorem enumerates_of_push {src : SeqSource} {w1 w' : World} {v : Value} {vs : List Value}
    (hroom : s.stackTop < stackSize)
    (hstart : src.start h s = Vm.pushValue { s with world := w1 } v)
    (hwalk : Walks h.junk w1 v vs w') (hmeets : src.Meets w' vs) : src.Enumerates h s := by
  obtain ⟨s1, hpush, htop, rfl⟩ := pushValue_top hroom w1 v
  exact ⟨s1, v, vs, w', hstart.trans hpush, htop, hwalk, hmeets⟩

theorem enumerates_vector {i : Nat} {xs : List Value} (hgiven : (vector i xs).Given s)
    (hroom : s.stackTop < stackSize) (hmem : s.world.objects.length + xs.length + 1 < 2 ^ 64) :
    (vector i xs).Enumerates h s := by
  obtain ⟨v, hv, htype, vec, hobj, hr⟩ := hgiven
  have hvec := vecObject_eq_ok.mp hobj
  obtain ⟨w1, it, w', hcreate, hwalk⟩ := itCreateVector_walks h.junk hr hvec hmem
  refine enumerates_of_push hroom ?_ hwalk rfl
  rw [start, Vm.suSeq, hv, Outcome.ok_bind, htype]
  simp only [ValType.suType, hvec, Outcome.ok_bind, hcreate]

theorem enumerates_list {xs : List Value} (hgiven : (list xs).Given s)
    (hroom : s.stackTop < stackSize) (hmem : s.world.objects.length + xs.length < 2 ^ 64) :
    (list xs).Enumerates h s := by
  obtain ⟨-, hlen, hargs⟩ := hgiven
  obtain ⟨w1, v, hcells, -, hchain⟩ := cellCreateArray_chained h.junk xs hmem
  refine enumerates_of_push hroom ?_ hchain.walks rfl
  rw [start, Vm.suList, decide_eq_true hlen, Outcome.require_true, Outcome.ok_bind, hargs, hcells]
  rfl

/-- A string makes an iterator that cannot be walked, unless it is empty. -/
theorem enumerates_string_iff {i : Nat} {cs : List Byte} (hgiven : (string i cs).Given s)
    (hroom : s.stackTop < stackSize) (hmem : s.world.objects.length + 1 < 2 ^ 64) :
    (string i cs).Enumerates h s ↔ cs = [] := by
  obtain ⟨v, hv, htype, hash, hstr⟩ := hgiven
  have hstart : (string i cs).start h s = (itCreateString h.junk s.world v.addr (cs ++ [0#8]))
      >>= fun r => Vm.pushValue { s with world := r.1 } r.2 := by
    rw [start, Vm.suSeq, hv, Outcome.ok_bind, htype]
    simp only [ValType.suType, hstr, Outcome.ok_bind]
  constructor
  · rintro ⟨s1, it, vs, w', hrun, htop, hwalk, -⟩
    by_contra hne
    have hlen : ¬ (cs ++ [0#8]).length ≤ 1 := by
      have := List.length_pos_iff.mpr hne
      rw [List.length_append, List.length_singleton]
      omega
    obtain ⟨w1, halloc, hadds⟩ := adds_alloc (w := s.world) (.iterator 0 v.addr) hmem
    obtain ⟨s2, hpush, htop', rfl⟩ :=
      pushValue_top hroom w1 (objValue .itSeq (s.world.objects.length + 1))
    rw [hstart, itCreateString, if_neg hlen, halloc] at hrun
    obtain rfl := Outcome.ok.inj (hpush.symm.trans hrun)
    obtain rfl := Outcome.ok.inj (htop'.symm.trans htop)
    have hit : s2.world.object (objValue .itSeq (s.world.objects.length + 1)).addr
        = .ok (.iterator 0 v.addr) := by
      rw [addr_objValue hmem]
      exact object_alloc_self halloc
    exact not_walks_string rfl hit (hadds.objects _ _ hstr) vs hwalk
  · rintro rfl
    refine enumerates_of_push hroom hstart (.done rfl) .nil

end SeqSource

open SeqSource in
/-- **A sequence enumerates what it was made of**: vectors and lists in the
order of their elements, strings only when they have no characters. -/
theorem seq_enumerates_iff {h : Host} {s : Vm} {src : SeqSource} (hgiven : src.Given s)
    (hroom : s.stackTop < stackSize) (hmem : s.world.objects.length + src.length + 1 < 2 ^ 64) :
    src.Enumerates h s ↔ ∀ i cs, src = .string i cs → cs = [] := by
  cases src with
  | vector i xs =>
      have hall := enumerates_vector (h := h) hgiven hroom hmem
      exact iff_of_true hall nofun
  | list xs =>
      have hall := enumerates_list (h := h) hgiven hroom (Nat.lt_of_succ_lt hmem)
      exact iff_of_true hall nofun
  | string i cs =>
      rw [enumerates_string_iff hgiven hroom (by omega)]
      refine ⟨fun hnil j ds heq => ?_, fun hall => hall i cs rfl⟩
      cases heq
      exact hnil

/-- `vs` on the stack, and the string `"a"` in the world. -/
def seqState (vs : List Value) : Vm where
  world := ⟨[.string (murmur [0x61#8, 0#8] 0) [0x61#8, 0#8]], mapCreateEmpty, 0, 0, 0⟩
  stack := fun i => vs.getD i ⟨.nil, 0#64⟩
  stackTop := vs.length
  frames := fun _ => ⟨⟨0, .mk [] [] [] [] [] [], [], []⟩, 0, 0⟩
  frameTop := 0
  func := ⟨0, .mk [] [] [] [] [] [], [], []⟩
  pc := 0

/-- A list of two numbers. -/
theorem seq_enumerates_two :
    (SeqSource.list [⟨.number, 1#64⟩, ⟨.number, 2#64⟩]).Enumerates idleHost
      (seqState [⟨.number, 1#64⟩, ⟨.number, 2#64⟩]) := by
  have hgiven : (SeqSource.list [⟨.number, 1#64⟩, ⟨.number, 2#64⟩]).Given
      (seqState [⟨.number, 1#64⟩, ⟨.number, 2#64⟩]) := ⟨nofun, Nat.le_refl 2, rfl⟩
  exact (seq_enumerates_iff hgiven (by simp [seqState, stackSize])
    (by simp [seqState, SeqSource.length])).mpr nofun

/-- The string `"a"` is not walked. -/
theorem seq_string_fails :
    (SeqSource.string 1 [0x61#8]).Given (seqState [objValue .string 1])
      ∧ ¬ (SeqSource.string 1 [0x61#8]).Enumerates idleHost (seqState [objValue .string 1]) := by
  have hgiven : (SeqSource.string 1 [0x61#8]).Given (seqState [objValue .string 1]) :=
    ⟨objValue .string 1, rfl, rfl, _, rfl⟩
  refine ⟨hgiven, fun henum => ?_⟩
  have hnil := (SeqSource.enumerates_string_iff hgiven (by simp [seqState, stackSize])
    (by simp [seqState])).mp henum
  cases hnil

end Saurus
