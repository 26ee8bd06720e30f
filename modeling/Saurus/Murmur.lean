import Mathlib.Algebra.Group.Int.Defs
import Mathlib.Algebra.Group.Nat.Defs
import Mathlib.Tactic.Common

/-!
# The hash of strings and values

`murmur` over the bytes at `key`, 32-bit words read in the byte order of
the machine (little-endian). Its length argument is an `int`: a size of
`2 ^ 31` or more arrives negative, and neither the loop nor the `switch`
then reads a byte.
-/

namespace Saurus

abbrev Byte : Type := BitVec 8

/-- `*(unsigned*)data` -/
def readWord (a b c d : Byte) : BitVec 32 :=
  a.setWidth 32 ||| b.setWidth 32 <<< 8 ||| c.setWidth 32 <<< 16 ||| d.setWidth 32 <<< 24

def murmurM : BitVec 32 := 0x5bd1e995#32

/-- The body of the `while` loop, for the word `k`. -/
def murmurMix (h k : BitVec 32) : BitVec 32 :=
  let k := k * murmurM
  let k := k ^^^ k >>> 24
  (h * murmurM) ^^^ k * murmurM

/-- The `while` loop and the `switch` on what is left. -/
def murmurData (h : BitVec 32) : List Byte → BitVec 32
  | a :: b :: c :: d :: data => murmurData (murmurMix h (readWord a b c d)) data
  | [a, b, c] => (h ^^^ c.setWidth 32 <<< 16 ^^^ b.setWidth 32 <<< 8 ^^^ a.setWidth 32) * murmurM
  | [a, b] => (h ^^^ b.setWidth 32 <<< 8 ^^^ a.setWidth 32) * murmurM
  | [a] => (h ^^^ a.setWidth 32) * murmurM
  | [] => h

def murmurFinish (h : BitVec 32) : BitVec 32 :=
  let h := h ^^^ h >>> 13
  let h := h * murmurM
  h ^^^ h >>> 15

/-- `murmur(key, len, seed)` for the `len` bytes `key`. -/
def murmur (key : List Byte) (seed : BitVec 32) : BitVec 32 :=
  let h := seed ^^^ BitVec.ofNat 32 key.length
  murmurFinish (if key.length < 2 ^ 31 then murmurData h key else h)

end Saurus
