import Mathlib.Data.List.Nodup
import Saurus.Gc.Mark

/-!
# What a collection frees

Runs of the interpreter as the collector sees them. Between collections an
instruction or API call may rewrite the stack, the roots and the fields of
any object, and registers new objects with `gc_insert_object`; it never
touches a flag or the mark stack. `Mutates` allows all of that, so a
statement about every `GcRun` covers every program.

A collection frees no reachable object exactly when the old reachable
objects are reachable through old objects (`cycle_safe_iff`). An object
that has lost all its paths but one through an object allocated since the
previous cycle is freed: `add_to_gray` turns a transient object away, and
`scan` never looks inside.
-/

namespace Saurus

open Basis Basis.Marking GcState

/-! ## Registering objects -/

/-- A value that points to an object. -/
def ptrValue (type : ValType) (a : Addr) : Value := ⟨type, BitVec.ofNat 64 a⟩

/-- `gc_insert_object` for a block just allocated at `a`. -/
def gcInsertObject (s : GcState) (a : Addr) (body : GcBody) : GcState :=
  { s with objects := ⟨a, .trans, body⟩ :: s.objects, numObjects := s.numObjects + 1 }

/-- `su_init`, `p k` being the address of its `k`-th allocation: two empty
maps, then `update_global_ref`, which interns `"_G"`, makes a local for the
globals and enters it there. -/
def suInit (p : Nat → Addr) : GcState :=
  let key : Value := ⟨.nativeptr, (murmur [0x5f#8, 0x47#8, 0#8] 0).setWidth 64⟩
  let name := ptrValue .string (p 4)
  let s : GcState := ⟨[], ptrValue .map (p 9), ptrValue .map (p 6), [], 0, []⟩
  let s := gcInsertObject (gcInsertObject s (p 0) .mapEmpty) (p 1) (.map (p 0))
  let s := gcInsertObject (gcInsertObject s (p 2) .mapEmpty) (p 3) (.map (p 2))
  let s := gcInsertObject s (p 4) .string
  let s := gcInsertObject s (p 5) (.mapLeaf key name)
  let s := gcInsertObject s (p 6) (.map (p 5))
  let s := gcInsertObject s (p 7) (.loc (ptrValue .map (p 3)))
  let s := gcInsertObject s (p 8) (.mapLeaf name (ptrValue .loc (p 7)))
  gcInsertObject s (p 9) (.map (p 8))

/-! ## Runs -/

/-- What an instruction or API call does to the heap. -/
structure Mutates (s s' : GcState) : Prop where
  gray : s'.gray = s.gray
  nodup : (s'.objects.map (·.addr)).Nodup
  objects : ∃ new kept, s'.objects = new ++ kept ∧ (∀ o ∈ new, o.flag = .trans)
    ∧ kept.map (fun o => (o.addr, o.flag)) = s.objects.map fun o => (o.addr, o.flag)

/-- A collection cycle, asked for or triggered. -/
inductive Cycle (s s' : GcState) : Prop
  | suGc (h : suGc s = .ok s')
  | trace (htrigger : s.numObjects > aliveObjects) (h : gcTrace s = .ok s')

/-- States reached from `su_init`. -/
inductive GcRun : GcState → Prop
  | init (p : Nat → Addr) (hp : ((List.range 10).map p).Nodup) : GcRun (suInit p)
  | mutate {s s' : GcState} (hs : GcRun s) (h : Mutates s s') : GcRun s'
  | collect {s s' : GcState} (hs : GcRun s) (h : Cycle s s') : GcRun s'

/-- What the program does between collections makes new objects and leaves the
flags of the others alone. -/
theorem Quiescent.mutate {s s' : GcState} (hs : Quiescent s) (h : Mutates s s') :
    Quiescent s' := by
  obtain ⟨new, kept, hobjects, hnew, hkept⟩ := h.objects
  refine ⟨h.gray.trans hs.gray, fun o ho => ?_, h.nodup⟩
  rw [hobjects] at ho
  rcases List.mem_append.mp ho with ho | ho
  · exact Or.inl (hnew o ho)
  · have hmem : (o.addr, o.flag) ∈ s.objects.map fun o => (o.addr, o.flag) :=
      hkept ▸ List.mem_map_of_mem (f := fun o : GcObject => (o.addr, o.flag)) ho
    obtain ⟨q, hq, heq⟩ := List.mem_map.mp hmem
    rw [← (Prod.mk.inj heq).2]
    exact hs.flags q hq

/-- Both kinds of cycle are `begin`, `scan` and `end`. `su_gc` does all three;
`gc_trace` comes to `end` in the turn in which it has begun, since scanning
leaves nothing gray. -/
theorem Cycle.phases {s s' : GcState} (hs : Quiescent s) (h : Cycle s s') :
    ∃ s1 s2, gcBegin s = .ok s1 ∧ scan s1 = .ok s2 ∧ s' = gcEnd s2 := by
  cases h with
  | suGc h =>
      rw [Saurus.suGc, if_pos hs.gray, Outcome.pure_eq, Outcome.ok_bind] at h
      obtain ⟨s1, h1, h⟩ := Outcome.bind_eq_ok.mp h
      obtain ⟨s2, h2, h⟩ := Outcome.bind_eq_ok.mp h
      cases h
      exact ⟨s1, s2, h1, h2, rfl⟩
  | trace htrigger h =>
      rw [gcTrace, if_pos htrigger, if_pos hs.gray] at h
      obtain ⟨s1, h1, h⟩ := Outcome.bind_eq_ok.mp h
      obtain ⟨s2, h2, h⟩ := Outcome.bind_eq_ok.mp h
      obtain ⟨-, hgray, -⟩ := marked_iff hs h1 h2
      rw [if_pos hgray] at h
      cases h
      exact ⟨s1, s2, h1, h2, rfl⟩

/-- `end` makes everything old that it keeps. -/
theorem Quiescent.collect {s s' : GcState} (hs : Quiescent s) (h : Cycle s s') :
    Quiescent s' := by
  obtain ⟨s1, s2, h1, h2, rfl⟩ := h.phases hs
  obtain ⟨hframe, hgray, -⟩ := marked_iff hs h1 h2
  exact quiescent_gcEnd hgray (hframe.addrs ▸ hs.nodup)

theorem quiescent_init {p : Nat → Addr} (hp : ((List.range 10).map p).Nodup) :
    Quiescent (suInit p) where
  gray := rfl
  flags := fun o ho => by
    simp only [suInit, gcInsertObject, List.mem_cons, List.not_mem_nil, or_false] at ho
    rcases ho with rfl | rfl | rfl | rfl | rfl | rfl | rfl | rfl | rfl | rfl <;> exact Or.inl rfl
  nodup := by
    have hrev := List.nodup_reverse.mpr hp
    rwa [← List.map_reverse] at hrev

/-- Between collections all flags say old or new, and nothing is gray; by
induction on the run. So a cycle always begins with `begin`, and never in the
middle of one. -/
theorem GcRun.quiescent {s : GcState} (h : GcRun s) : Quiescent s := by
  induction h with
  | init p hp => exact quiescent_init hp
  | mutate _ h ih => exact ih.mutate h
  | collect _ h ih => exact ih.collect h

/-! ## The condition -/

theorem live_of_reached {s : GcState} {a : Addr} (h : Reached s a) : Live s a := h.mem

/-- **When a collection is safe.** In every reachable state a completed
cycle, asked for or triggered, keeps all reachable objects if and only if every
old object that is reachable is reachable along old objects.

Between collections all flags say old or new (`GcRun.quiescent`), so marking
reaches exactly the old objects that old ones lead to (`marked_iff`), and what
survives is that and everything new. An old object that only new ones lead to
is freed. -/
theorem cycle_safe_iff {s s' : GcState} (hs : GcRun s) (hc : Cycle s s') :
    (∀ a, Reached s a → Live s' a) ↔ ∀ a, Old s a → Reached s a → ReachedOld s a := by
  have hq := hs.quiescent
  obtain ⟨s1, s2, h1, h2, rfl⟩ := hc.phases hq
  obtain ⟨hframe, -, hmarked⟩ := marked_iff hq h1 h2
  have hsurvives : ∀ o ∈ s.objects,
      (Live (gcEnd s2) o.addr ↔ o.flag = .trans ∨ ReachedOld s o.addr) := fun o ho =>
    (survives_iff hq.nodup hframe ho).trans (hmarked o ho)
  constructor
  · rintro hsafe a ⟨o, hlook, hw⟩ hreach
    have ho := lookup_mem hlook
    rw [← lookup_addr hlook] at hreach ⊢
    have hkept := (hsurvives o ho).mp (hsafe _ hreach)
    rw [hw] at hkept
    exact hkept.resolve_left (by decide)
  · intro hcond a hreach
    obtain ⟨o, ho, rfl⟩ := live_of_reached hreach
    rw [hsurvives o ho]
    rcases hq.flags o ho with hf | hf
    · exact Or.inl hf
    · exact Or.inr (hcond _ ⟨o, lookup_of_mem hq.nodup ho, hf⟩ hreach)

/-- The condition holds where what the new objects lead to is reachable along
old objects anyway. -/
theorem reachedOld_of_new {s : GcState}
    (hnew : ∀ a, ¬ Old s a → ∀ b ∈ s.next a, Old s b → ReachedOld s b) {a : Addr}
    (hold : Old s a) (hreach : Reached s a) : ReachedOld s a := by
  induction hreach with
  | root hroot _ => exact .root hroot hold
  | @step a b _ hb _ ih =>
      by_cases ha : Old s a
      · exact .step (ih ha) hb hold
      · exact hnew a ha b hb hold

/-! ## API calls -/

/-- `STK(idx)`, which has to be a slot below `stack_top`. -/
def stk (s : GcState) (idx : Int) : Outcome Value := do
  let i := (s.stack.length : Int) + idx
  Outcome.require (decide (0 ≤ i))
  Outcome.ofOption s.stack[i.toNat]?

/-- `push_value` -/
def pushValue (s : GcState) (v : Value) : Outcome GcState := do
  Outcome.check (decide (s.stack.length < stackSize)) "Stack overflow!"
  pure { s with stack := s.stack ++ [v] }

/-- `su_pushnil` writes the tag only; `junk` is what the payload was. -/
def suPushnil (s : GcState) (junk : BitVec 64) : Outcome GcState := pushValue s ⟨.nil, junk⟩

def suPop (s : GcState) (n : Nat) : Outcome GcState := do
  Outcome.require (decide (n ≤ s.stack.length))
  pure { s with stack := s.stack.take (s.stack.length - n) }

/-- `su_ref_local`, the new `local_t` being allocated at `a`; the allocator
gives out no block that is in use. -/
def suRefLocal (s : GcState) (idx : Int) (a : Addr) : Outcome GcState := do
  Outcome.require (decide (a ∉ s.objects.map (·.addr)))
  let v ← stk s idx
  pushValue (gcInsertObject s a (.loc v)) (ptrValue .loc a)

/-- `loc->v = v` -/
def setLoc (s : GcState) (a : Addr) (v : Value) : GcState :=
  { s with objects := s.objects.map fun o => if o.addr = a then { o with body := .loc v } else o }

/-- `su_set_local` -/
def suSetLocal (s : GcState) (idx : Int) : Outcome GcState := do
  let loc ← stk s idx
  let v ← stk s (-1)
  match s.lookup loc.obj.toNat with
  | some ⟨_, _, .loc _⟩ => suPop (setLoc s loc.obj.toNat v) 1
  | _ => .fault

/-- Calls of the API a program can make. -/
inductive ApiCall where
  | pushnil (junk : BitVec 64)
  | pop (n : Nat)
  | refLocal (idx : Int) (a : Addr)
  | setLocal (idx : Int)
  | gc

def ApiCall.run (s : GcState) : ApiCall → Outcome GcState
  | .pushnil junk => suPushnil s junk
  | .pop n => suPop s n
  | .refLocal idx a => suRefLocal s idx a
  | .setLocal idx => suSetLocal s idx
  | .gc => suGc s

theorem pushValue_ok {s s' : GcState} {v : Value} (h : pushValue s v = .ok s') :
    s' = { s with stack := s.stack ++ [v] } := by
  obtain ⟨_, -, h⟩ := Outcome.bind_eq_ok.mp h
  cases h
  rfl

theorem suPop_ok {s s' : GcState} {n : Nat} (h : suPop s n = .ok s') :
    s' = { s with stack := s.stack.take (s.stack.length - n) } := by
  obtain ⟨_, -, h⟩ := Outcome.bind_eq_ok.mp h
  cases h
  rfl

/-- A step that leaves the object list alone. -/
theorem mutates_stack {s : GcState} (hs : Quiescent s) (stack : List Value) :
    Mutates s { s with stack := stack } :=
  ⟨rfl, hs.nodup, [], s.objects, rfl, fun _ ho => absurd ho List.not_mem_nil, rfl⟩

/-- Every call is a step of the run: those that push or pop leave the objects
alone, `su_ref_local` makes one, `su_set_local` changes what one holds. -/
theorem ApiCall.run_ok {s s' : GcState} (hs : GcRun s) {c : ApiCall} (h : c.run s = .ok s') :
    GcRun s' := by
  have hq := hs.quiescent
  cases c with
  | pushnil junk =>
      rw [pushValue_ok h]
      exact hs.mutate (mutates_stack hq _)
  | pop n =>
      rw [suPop_ok h]
      exact hs.mutate (mutates_stack hq _)
  | refLocal idx a =>
      rw [ApiCall.run, suRefLocal] at h
      obtain ⟨_, hfresh, h⟩ := Outcome.bind_eq_ok.mp h
      obtain ⟨v, -, h⟩ := Outcome.bind_eq_ok.mp h
      rw [pushValue_ok h]
      rw [Outcome.require_eq_ok, decide_eq_true_eq] at hfresh
      refine hs.mutate ⟨rfl, List.nodup_cons.mpr ⟨hfresh, hq.nodup⟩,
        [⟨a, .trans, .loc v⟩], s.objects, rfl, fun o ho => ?_, rfl⟩
      rw [List.mem_singleton.mp ho]
  | setLocal idx =>
      rw [ApiCall.run, suSetLocal] at h
      obtain ⟨loc, -, h⟩ := Outcome.bind_eq_ok.mp h
      obtain ⟨v, -, h⟩ := Outcome.bind_eq_ok.mp h
      have hmap : ∀ a, (setLoc s a v).objects.map (fun o => (o.addr, o.flag))
          = s.objects.map fun o => (o.addr, o.flag) := fun a => by
        rw [setLoc, List.map_map]
        refine List.map_congr_left fun o _ => ?_
        by_cases ho : o.addr = a <;> simp [ho]
      split at h
      · rw [suPop_ok h]
        refine hs.mutate ⟨rfl, ?_, [], _, rfl, fun _ ho => absurd ho List.not_mem_nil, hmap _⟩
        have haddr := congrArg (List.map Prod.fst) (hmap loc.obj.toNat)
        rw [List.map_map, List.map_map] at haddr
        exact haddr ▸ hq.nodup
      · cases h
  | gc => exact hs.collect (.suGc h)

theorem runApi_ok : ∀ {cs : List ApiCall} {s s' : GcState}, GcRun s →
    cs.foldlM ApiCall.run s = .ok s' → GcRun s'
  | [], _, _, hs, h => by
      cases h
      exact hs
  | _ :: _, _, _, hs, h => by
      rw [List.foldlM_cons] at h
      obtain ⟨s1, h1, h⟩ := Outcome.bind_eq_ok.mp h
      exact runApi_ok (ApiCall.run_ok hs h1) h

/-! ## An object that is kept -/

/-- Two locals are made before a collection. After it the second is dropped
from the stack, and one more is made that holds the first. -/
def keptCalls : List ApiCall :=
  [.pushnil 0, .refLocal (-1) 11, .refLocal (-1) 13, .gc, .pop 1, .refLocal (-1) 12]

/-- The heap then: the new local 12 leads to 11, and 13 is garbage. -/
def keptHeap : GcState where
  stack := [⟨.nil, 0⟩, ptrValue .loc 11, ptrValue .loc 12]
  globals := ptrValue .map 10
  strings := ptrValue .map 7
  objects := ⟨12, .trans, .loc (ptrValue .loc 11)⟩ :: ⟨13, .white, .loc (ptrValue .loc 11)⟩
    :: ⟨11, .white, .loc ⟨.nil, 0⟩⟩
    :: (suInit (· + 1)).objects.map fun o => { o with flag := .white }
  numObjects := 13
  gray := []

/-- What a collection of it leaves; the first, empty version of `strings` is
garbage as well. -/
def keptSwept : GcState :=
  { keptHeap with
    objects := (keptHeap.objects.filter (·.addr ∉ [1, 2, 13])).map fun o =>
      { o with flag := .white }
    numObjects := 10 }

theorem kept_run : keptCalls.foldlM ApiCall.run (suInit (· + 1)) = .ok keptHeap := by
  decide +kernel

/-- Old and new objects, of which the reachable ones are kept: 11 is old and what
the new local 12 leads to, but on the stack as well. -/
theorem cycle_safe_iff_kept :
    GcRun keptHeap ∧ Saurus.suGc keptHeap = .ok keptSwept
      ∧ (∀ a, Reached keptHeap a → Live keptSwept a) ∧ ¬ Live keptSwept 13 := by
  have hgc : Saurus.suGc keptHeap = .ok keptSwept := by decide +kernel
  have hrun : GcRun keptHeap := runApi_ok (.init (· + 1) (by decide)) kept_run
  have h11 : ReachedOld keptHeap 11 := .root (by decide +kernel) ⟨_, rfl, rfl⟩
  have hobjects : ∀ o ∈ keptHeap.objects, o.flag ≠ .white → children o.body = [11] := by
    decide +kernel
  refine ⟨hrun, hgc, (cycle_safe_iff hrun (.suGc hgc)).mpr fun a hold hreach =>
    reachedOld_of_new (fun a ha b hb _ => ?_) hold hreach, by decide +kernel⟩
  unfold GcState.next at hb
  cases hlook : keptHeap.lookup a with
  | none =>
      rw [hlook] at hb
      cases hb
  | some o =>
      rw [hlook] at hb
      have hnext := hobjects o (lookup_mem hlook) fun hw => ha ⟨o, hlook, hw⟩
      rw [show b = 11 from List.mem_singleton.mp (hnext ▸ hb)]
      exact h11

/-! ## An object that is lost -/

/-- Two locals are made before a collection. After it a third one is made
that holds the second, stored in the first, and the second is dropped from
the stack. -/
def hiddenCalls : List ApiCall :=
  [.pushnil 0, .refLocal (-1) 11, .refLocal (-1) 12, .gc, .refLocal (-1) 13, .setLocal (-3), .pop 1]

/-- The heap then: 11 is on the stack and leads to 12 through 13. -/
def hiddenHeap : GcState where
  stack := [⟨.nil, 0⟩, ptrValue .loc 11]
  globals := ptrValue .map 10
  strings := ptrValue .map 7
  objects := ⟨13, .trans, .loc (ptrValue .loc 12)⟩ :: ⟨12, .white, .loc (ptrValue .loc 11)⟩
    :: ⟨11, .white, .loc (ptrValue .loc 13)⟩
    :: (suInit (· + 1)).objects.map fun o => { o with flag := .white }
  numObjects := 13
  gray := []

theorem hidden_run : hiddenCalls.foldlM ApiCall.run (suInit (· + 1)) = .ok hiddenHeap := by
  decide +kernel

/-- After `su_gc`: besides the first, empty version of `strings`, local 12
is gone. -/
def hiddenSwept : GcState :=
  { hiddenHeap with
    objects := (hiddenHeap.objects.filter (·.addr ∉ [1, 2, 12])).map fun o =>
      { o with flag := .white }
    numObjects := 10 }

/-- `su_gc` frees the old local 12, which the stack still reaches through
the transient local 13. -/
theorem cycle_frees_reached :
    ∃ s s', GcRun s ∧ Cycle s s' ∧ Old s 12 ∧ Reached s 12 ∧ ¬ Live s' 12 := by
  have hgc : Saurus.suGc hiddenHeap = .ok hiddenSwept := by decide +kernel
  have hrun : GcRun hiddenHeap := runApi_ok (.init (· + 1) (by decide)) hidden_run
  have h11 : Reached hiddenHeap 11 := .root (by decide +kernel) (by decide +kernel)
  have h13 : Reached hiddenHeap 13 := .step h11 (by decide +kernel) (by decide +kernel)
  have h12 : Reached hiddenHeap 12 := .step h13 (by decide +kernel) (by decide +kernel)
  exact ⟨hiddenHeap, hiddenSwept, hrun, .suGc hgc, ⟨_, rfl, rfl⟩, h12, by decide +kernel⟩

end Saurus
