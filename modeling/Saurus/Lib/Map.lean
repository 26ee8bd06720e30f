import Saurus.Hash
import Saurus.Vm.Native

/-!
# The map natives

The functions of the C interface that work on maps, and the natives made of
them. Each takes its map from a given slot and its key from another one that
it counts from the top of the stack; `obj.m` of whatever is in the slot is
read as the map, its type is not looked at.
-/

namespace Saurus

open Basis

/-! ## Maps in the world -/

/-- The `map_t` at `v.obj.m`. -/
def mapObject (w : World) (v : Value) : Outcome HMap := do
  match ← w.object v.addr with
  | .map m => pure m
  | _ => .fault

/-- The value `map_insert` returns: a map that is not changed is itself. -/
def insertMap (w : World) (m key : Value) (hash : BitVec 32) (val : Value) :
    Outcome (World × Value) := do
  match ← mapInsert? (← mapObject w m) key hash val with
  | none => pure (w, ⟨.map, m.obj⟩)
  | some m' => do
      let (w, a) ← w.alloc (.map m')
      pure (w, objValue .map a)

/-- The value `map_remove` returns. -/
def removeMap (w : World) (m key : Value) (hash : BitVec 32) : Outcome (World × Value) := do
  match ← mapRemove? (← mapObject w m) key hash with
  | none => pure (w, ⟨.map, m.obj⟩)
  | some m' => do
      let (w, a) ← w.alloc (.map m')
      pure (w, objValue .map a)

/-- The loop of `su_map` over keys and values in turn. -/
def suMapLoop : World → Value → List Value → Outcome (World × Value)
  | w, m, k :: v :: rest => do
      let (w, m) ← insertMap w m k (← hashValue w k) v
      suMapLoop w m rest
  | w, m, _ => pure (w, m)

namespace Vm

/-- `su_map` -/
def suMap (s : Vm) (num : Nat) : Outcome Vm := do
  let (w, a) ← s.world.alloc (.map mapCreateEmpty)
  Outcome.check (decide (num % 2 = 0)) "Expected key value pairs!"
  Outcome.require (decide (num ≤ s.stackTop))
  let (w, m) ← suMapLoop w (objValue .map a) (s.window (s.stackTop - num) num)
  { s with world := w }.pushValue m

/-- `su_map_length(s, -i)` -/
def suMapLength (s : Vm) (i : Nat) : Outcome Int := do
  pure (mapLength (← mapObject s.world (← s.stk i)))

/-- `su_map_get(s, -i)` -/
def suMapGet (s : Vm) (i : Nat) : Outcome (Vm × Nat) := do
  let key ← s.stk 1
  let hash ← hashValue s.world key
  let v ← mapGet (← mapObject s.world (← s.stk i)) key hash
  if v.type = .inv then pure (s, 0)
  else do
    let s ← s.pushValue v
    pure (s, 1)

/-- `su_map_insert(s, -i)` -/
def suMapInsert (s : Vm) (i : Nat) : Outcome Vm := do
  let key ← s.stk 2
  let hash ← hashValue s.world key
  let (w, m) ← insertMap s.world (← s.stk i) key hash (← s.stk 1)
  { s with world := w }.pushValue m

/-- `su_map_remove(s, -i)` -/
def suMapRemove (s : Vm) (i : Nat) : Outcome Vm := do
  let key ← s.stk 1
  let hash ← hashValue s.world key
  let (w, m) ← removeMap s.world (← s.stk i) key hash
  { s with world := w }.pushValue m

/-- `su_map_has(s, -i)` -/
def suMapHas (s : Vm) (i : Nat) : Outcome Bool := do
  let key ← s.stk 1
  let hash ← hashValue s.world key
  let v ← mapGet (← mapObject s.world (← s.stk i)) key hash
  pure (decide (v.type ≠ .inv))

/-- `su_pushinteger` -/
def suPushInteger (h : Host) (s : Vm) (i : Int) : Outcome Vm :=
  s.pushValue ⟨.number, h.ofInt i⟩

/-- `su_pushboolean` -/
def suPushBoolean (h : Host) (s : Vm) (b : Bool) : Outcome Vm :=
  let (w, obj) := drawJunk h.junk s.world
  { s with world := w }.pushValue ⟨.boolean, setObjB obj b⟩

end Vm

/-! ## The natives -/

/-- `map` -/
def libMap : CFunction := fun s narg => do
  let s ← s.suMap narg
  pure (s, 1)

/-- `map_length` -/
def libMapLength (h : Host) : CFunction := fun s narg => do
  s.suCheckArguments narg 1 [.map]
  let s ← s.suPushInteger h (← s.suMapLength 1)
  pure (s, 1)

/-- `map_get` -/
def libMapGet : CFunction := fun s narg => do
  s.suCheckArguments narg 2 [.map, .nil]
  s.suMapGet 2

/-- `map_set` -/
def libMapSet : CFunction := fun s narg => do
  s.suCheckArguments narg 3 [.map, .nil, .nil]
  let s ← s.suMapInsert 3
  pure (s, 1)

/-- `map_insert` -/
def libMapInsert : CFunction := fun s narg => do
  s.suCheckArguments narg 3 [.map, .nil, .nil]
  Outcome.check (!(← s.suMapHas 3)) "Duplicated key in map!"
  let s ← s.suMapInsert 3
  pure (s, 1)

/-- `map_remove` -/
def libMapRemove : CFunction := fun s narg => do
  s.suCheckArguments narg 2 [.map, .nil]
  Outcome.check (← s.suMapHas 3) "Key does not exist in map!"
  let s ← s.suMapRemove 1
  pure (s, 1)

/-- `map_has` -/
def libMapHas (h : Host) : CFunction := fun s narg => do
  s.suCheckArguments narg 2 [.map, .nil]
  let s ← s.suPushBoolean h (← s.suMapHas 1)
  pure (s, 1)

/-! ## Map objects -/

theorem mapObject_eq_ok {w : World} {v : Value} {m : HMap} :
    mapObject w v = .ok m ↔ w.object v.addr = .ok (.map m) := by
  rw [mapObject, Outcome.bind_eq_ok]
  constructor
  · rintro ⟨o, ho, h⟩
    cases o with
    | map m' => cases h; exact ho
    | _ => cases h
  · exact fun h => ⟨_, h, rfl⟩

theorem alloc_map {w : World} (m : HMap) (hmem : w.objects.length + 1 < 2 ^ 64) :
    ∃ w', w.alloc (.map m) = .ok (w', w.objects.length + 1) ∧ w.Adds w' 1
      ∧ mapObject w' (objValue .map (w.objects.length + 1)) = .ok m := by
  obtain ⟨w', halloc, hadds⟩ := adds_alloc (.map m) hmem
  refine ⟨w', halloc, hadds, mapObject_eq_ok.mpr ?_⟩
  rw [addr_objValue hmem]
  exact object_alloc_self halloc

/-- What `map_insert` returns is a map object with the new contents. -/
theorem insertMap_ok {w : World} {m key val : Value} {hash : BitVec 32} {hm m' : HMap}
    (hobj : mapObject w m = .ok hm) (hmem : w.objects.length + 1 < 2 ^ 64)
    (hins : mapInsert hm key hash val = .ok m') :
    ∃ w' v n, insertMap w m key hash val = .ok (w', v) ∧ v.type = .map ∧ mapObject w' v = .ok m'
      ∧ w.Adds w' n ∧ n ≤ 1 := by
  obtain ⟨r, hr, rfl⟩ := Outcome.map_eq_ok.mp hins
  rw [insertMap, hobj, Outcome.ok_bind, hr, Outcome.ok_bind]
  cases r with
  | none => exact ⟨w, _, 0, rfl, rfl, mapObject_eq_ok.mpr (mapObject_eq_ok.mp hobj), .rfl,
      Nat.zero_le _⟩
  | some m' =>
      obtain ⟨w', halloc, hadds, hnew⟩ := alloc_map m' hmem
      exact ⟨w', _, 1, by dsimp only; rw [halloc]; rfl, rfl, hnew, hadds, Nat.le_refl _⟩

theorem mapInsert_of_insertMap {w w' : World} {m key val v : Value} {hash : BitVec 32} {hm : HMap}
    (hobj : mapObject w m = .ok hm) (hrun : insertMap w m key hash val = .ok (w', v)) :
    ∃ m', mapInsert hm key hash val = .ok m' := by
  rw [insertMap, hobj, Outcome.ok_bind] at hrun
  obtain ⟨r, hr, -⟩ := Outcome.bind_eq_ok.mp hrun
  exact ⟨_, by rw [mapInsert, hr]; rfl⟩

end Saurus
