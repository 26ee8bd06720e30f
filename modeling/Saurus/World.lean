import Saurus.Format.Tree
import Saurus.Map.Node
import Saurus.Vec.Node

/-!
# Objects, strings and globals

The part of the interpreter state that outlives a call: the objects, the
table of interned strings and the globals. Objects are kept in the order of
their allocation and an object's address is its place in that order, so
distinct objects have distinct addresses and no address is `NULL`.

Nothing is freed here. A collection can free objects that are still in use, as
the modules of `Gc` show, so what is said of a `World` is said of runs in which
none happens: there are `ALIVE_OBJECTS` objects at most, or every turn of the
interpreter begins without one.

A `value_t` whose union is not written, or only half of it, keeps what was
there before. Where that is a stack slot of C the bytes come from `junk`,
one draw for each such value.
-/

namespace Saurus

open Basis

/-- Place of an object in the order of allocation, from 1. -/
abbrev ObjAddr : Type := Nat

/-- `function_t` -/
structure FunctionObj where
  narg : Int
  prot : Proto
  constants : List Value
  upvalues : List Value
deriving Repr

/-- A collected object. Vectors and maps are kept whole, their nodes being
reached through them only. -/
inductive Obj where
  | string (hash : BitVec 32) (str : List Byte)
  | function (f : FunctionObj)
  | vector (v : Vec)
  | map (m : HMap)
  | loc (v : Value)
  | cell (first rest : Value)
  | iterator (idx : Nat) (obj : ObjAddr)
deriving Repr

/-- The lasting part of `su_state`; `host` stands for what natives can reach
outside the interpreter (files, terminals). -/
structure World where
  objects : List Obj
  strings : HMap
  globals : ObjAddr
  junks : Nat
  host : Nat
deriving Repr

namespace World

/-- The object at an address. -/
def object (w : World) (a : ObjAddr) : Outcome Obj :=
  if a = 0 then .fault else Outcome.ofOption w.objects[a - 1]?

/-- `su_allocate` and `gc_insert_object`; a pointer has 64 bits. -/
def alloc (w : World) (o : Obj) : Outcome (World × ObjAddr) :=
  if w.objects.length + 1 < 2 ^ 64 then
    .ok ({ w with objects := w.objects ++ [o] }, w.objects.length + 1)
  else .raise "Out of memory!"

end World

/-- A value that points to an object. -/
def objValue (type : ValType) (a : ObjAddr) : Value := ⟨type, BitVec.ofNat 64 a⟩

/-- `v.obj.gc_object` -/
def Value.addr (v : Value) : ObjAddr := v.obj.toNat

/-! ## Strings -/

/-- The key of a string in `strings`: a `SU_NATIVEPTR` with the hash in its
low four bytes. -/
def dbKey (hash : BitVec 32) : Value := ⟨.nativeptr, hash.setWidth 64⟩

/-- `string_from_db`, `size` being the length of `str`. -/
def stringFromDb (w : World) (hash : BitVec 32) (str : List Byte) :
    Outcome (World × ObjAddr) := do
  let v ← mapGet w.strings (dbKey hash) hash
  if v.type ≠ .inv then pure (w, v.addr)
  else do
    let (w, a) ← w.alloc (.string hash str)
    let strings ← mapInsert w.strings (dbKey hash) hash (objValue .string a)
    pure ({ w with strings := strings }, a)

/-- A string value with these bytes, as `su_pushbytes` and its like make. -/
def internString (w : World) (str : List Byte) : Outcome (World × Value) := do
  let (w, a) ← stringFromDb w (murmur str 0) str
  pure (w, objValue .string a)

/-! ## Hashes -/

/-- The number of a type in the enumerations of the source. -/
def ValType.code : ValType → Nat
  | .inv => 0 | .nil => 1 | .boolean => 2 | .string => 3 | .number => 4 | .seq => 5
  | .function => 6 | .nativefunc => 7 | .vector => 8 | .map => 9 | .loc => 10
  | .nativeptr => 11 | .nativedata => 12 | .cellSeq => 21 | .itSeq => 22

/-- The eight bytes of a union. -/
def valueBytes (obj : BitVec 64) : List Byte :=
  (List.range 8).map fun i => BitVec.ofNat 8 (obj.toNat >>> (8 * i))

/-- `hash_value` -/
def hashValue (w : World) (v : Value) : Outcome (BitVec 32) :=
  match v.type with
  | .nil => pure (BitVec.ofNat 32 ValType.nil.code)
  | .boolean => pure (v.obj.setWidth 32 + BitVec.ofNat 32 ValType.boolean.code)
  | .number => pure (murmur (valueBytes v.obj) (BitVec.ofNat 32 ValType.number.code))
  | .string => do
      match ← w.object v.addr with
      | .string hash _ => pure hash
      | _ => .fault
  | t => pure (murmur (valueBytes v.obj) (BitVec.ofNat 32 t.code))

/-! ## Globals -/

/-- The map `s->globals` points to. -/
def globalsMap (w : World) : Outcome HMap := do
  match ← w.object w.globals with
  | .map m => pure m
  | _ => .fault

/-- `s->globals = map_insert(s, s->globals.obj.m, key, hash, val)`: a map that
is not changed keeps its object. -/
def insertGlobal (w : World) (key : Value) (hash : BitVec 32) (val : Value) :
    Outcome World := do
  match ← mapInsert? (← globalsMap w) key hash val with
  | none => pure w
  | some m => do
      let (w, a) ← w.alloc (.map m)
      pure { w with globals := a }

/-- `"_G"` with its NUL. -/
def globalName : List Byte := [0x5f#8, 0x47#8, 0#8]

/-- `update_global_ref` -/
def updateGlobalRef (w : World) : Outcome World := do
  let (w, key) ← internString w globalName
  let (w, loc) ← w.alloc (.loc (objValue .map w.globals))
  insertGlobal w key (← hashValue w key) (objValue .loc loc)

/-! ## Constants and vectors -/

/-- Payload of a `value_t` that is not written. -/
def drawJunk (junk : Nat → BitVec 64) (w : World) : World × BitVec 64 :=
  ({ w with junks := w.junks + 1 }, junk w.junks)

/-- `v.obj.b = b`, on a payload whose other half stays. -/
def setObjB (obj : BitVec 64) (b : Bool) : BitVec 64 :=
  (obj &&& 0xffffffff00000000#64) ||| (if b then 1#64 else 0#64)

/-- `create_value` -/
def createValue (junk : Nat → BitVec 64) (w : World) : ProtoConst → Outcome (World × Value)
  | .string str => internString w str
  | .number num => pure (w, ⟨.number, num⟩)
  | .true => let (w, obj) := drawJunk junk w; pure (w, ⟨.boolean, setObjB obj true⟩)
  | .false => let (w, obj) := drawJunk junk w; pure (w, ⟨.boolean, setObjB obj false⟩)
  | .nil => let (w, obj) := drawJunk junk w; pure (w, ⟨.nil, obj⟩)

/-- The loop of `lambda` over the constants. -/
def createValues (junk : Nat → BitVec 64) : World → List ProtoConst →
    Outcome (World × List Value)
  | w, [] => pure (w, [])
  | w, c :: cs => do
      let (w, v) ← createValue junk w c
      let (w, vs) ← createValues junk w cs
      pure (w, v :: vs)

/-- The loop of `push_varg`: a vector object for every push. -/
def pushAll : World → ObjAddr → Vec → List Value → Outcome (World × ObjAddr)
  | w, a, _, [] => pure (w, a)
  | w, _, vec, v :: vs => do
      let vec ← vectorPush vec v
      let (w, a) ← w.alloc (.vector vec)
      pushAll w a vec vs

/-- The vector `push_varg` collects its arguments in. -/
def collectVarg (w : World) (args : List Value) : Outcome (World × Value) := do
  let (w, a) ← w.alloc (.vector vectorCreateEmpty)
  let (w, a) ← pushAll w a vectorCreateEmpty args
  pure (w, objValue .vector a)

end Saurus
