import Saurus.Basis.Codec
import Saurus.Format.Tree

/-!
# Reading a prototype

`buffer_read` over a callback that delivers the input in chunks, and
`read_prototype` on top of it. A failed read returns -1 through every level
(`eof`); an unknown constant tag runs into `assert(0)`.
-/

namespace Saurus

open Basis Basis.Codec

inductive ReadError where
  | eof
  | assert
  | header
  | depth
deriving Repr, DecidableEq

/-- `reader_buffer_t`: the bytes between `offset` and `len`, and the chunks
the callback has still to deliver, an empty list being end of input. -/
structure ReaderBuffer where
  data : List Byte
  chunks : List (List Byte)
deriving Repr, DecidableEq

abbrev Reader (α : Type) : Type := StateT ReaderBuffer (Except ReadError) α

/-- The loop of `buffer_read`: take what is there and fetch a chunk for the
rest. -/
def bufferFill : List (List Byte) → List Byte → Nat →
    Except ReadError (List Byte × ReaderBuffer)
  | [], data, n =>
      if n ≤ data.length then .ok (data.take n, ⟨data.drop n, []⟩) else .error .eof
  | chunk :: chunks, data, n =>
      if n ≤ data.length then .ok (data.take n, ⟨data.drop n, chunk :: chunks⟩)
      else if chunk = [] then .error .eof
      else do
        let (dest, buffer) ← bufferFill chunks chunk (n - data.length)
        .ok (data ++ dest, buffer)

/-- `buffer_read(s, buffer, dest, n)` -/
def bufferRead (n : Nat) : Reader (List Byte) := fun st => bufferFill st.chunks st.data n

/-- `READ` of an unsigned field of `w` bytes. -/
def readUnsigned (w : Nat) : Reader Nat := leNat <$> bufferRead w

def readString : Reader (List Byte) := do
  let size ← readUnsigned 4
  bufferRead size

def readInst : Reader Instruction := do
  let id ← readUnsigned 1
  let a ← readUnsigned 1
  let b ← readUnsigned 2
  pure ⟨BitVec.ofNat 8 id, BitVec.ofNat 8 a, BitVec.ofNat 16 b⟩

def readConst : Reader ProtoConst := do
  let id ← readUnsigned 1
  match id with
  | 0 => pure .nil
  | 1 => pure .false
  | 2 => pure .true
  | 3 => do pure (.number (BitVec.ofNat 64 (← readUnsigned 8)))
  | 4 => do pure (.string (← readString))
  | _ => throw .assert

def readUpvalue : Reader Upvalue := do
  let lv ← readUnsigned 2
  let idx ← readUnsigned 2
  pure ⟨BitVec.ofNat 16 lv, BitVec.ofNat 16 idx⟩

/-- A count and as many items. -/
def readTable {α : Type} (item : Reader α) : Reader (List α) := do
  let num ← readUnsigned 4
  readMany item num

/-- `read_prototype`, for prototypes nested less than `depth` deep. -/
def readPrototype : Nat → Reader Proto
  | 0 => throw .depth
  | depth + 1 => do
      let inst ← readTable readInst
      let constants ← readTable readConst
      let upvalues ← readTable readUpvalue
      let prot ← readTable (readPrototype depth)
      let name ← readString
      let lineinf ← readTable (BitVec.ofNat 32 <$> readUnsigned 4)
      pure (.mk inst constants upvalues prot name lineinf)

/-- `verify_header`: either number of the version may differ, not both. A header
that is cut short is an error at once here; `Load.verifyHeader` goes on with it
as the source does. -/
def verifyHeader : Reader Unit := do
  let sign ← bufferRead 4
  if sign ≠ [0x1b#8, 0x73#8, 0x75#8, 0x63#8] then throw .header
  let version ← bufferRead 2
  if version[0]? ≠ some 0#8 ∧ version[1]? ≠ some 0#8 then throw .header
  let flags ← readUnsigned 2
  if flags ≠ 0 then throw .header

/-- What `su_load` reads. -/
def readChunk (depth : Nat) : Reader Proto := do
  verifyHeader
  readPrototype depth

end Saurus
