import Saurus.Basis.Outcome

/-!
# Values

`value_t` is an eight-byte payload plus a type tag. The payload is kept as
64 bits whatever the tag says, because several operations of the VM write
only the tag or only part of the payload, and comparisons read all of it.

Numbers are IEEE 754 double patterns. `numEq` is the `==` of C on them:
unequal when either side is NaN, equal for the two zeros.

The node arrays and the element count that vectors and maps have in common
are at the end of the file.
-/

namespace Saurus

open Basis

/-- The type tags a `value_t` of a program can carry. The tags of the
internal map and vector nodes and of prototypes (`VECTOR_NODE`, `MAP_LEAF`,
..., `PROTOTYPE`) label slots that no value of the program ever sees; those
slots have Lean types of their own. -/
inductive ValType where
  | inv | nil | boolean | string | number
  | seq | function | nativefunc | vector | map
  | loc | nativeptr | nativedata
  | cellSeq | itSeq
deriving Repr, DecidableEq

/-- `value_t`: the union as its eight bytes, and the tag. -/
structure Value where
  type : ValType
  obj : BitVec 64
deriving Repr, DecidableEq

/-- `STACK_SIZE` -/
def stackSize : Nat := 512

/-! ## Doubles as bit patterns -/

/-- The pattern without its sign bit. -/
def numAbs (x : BitVec 64) : BitVec 64 := x &&& 0x7fffffffffffffff#64

def numIsNaN (x : BitVec 64) : Bool := (0x7ff0000000000000#64).ult (numAbs x)

def numIsZero (x : BitVec 64) : Bool := numAbs x == 0#64

/-- `==` on doubles. -/
def numEq (x y : BitVec 64) : Bool :=
  !numIsNaN x && !numIsNaN y && (x == y || (numIsZero x && numIsZero y))

theorem numEq_symm {x y : BitVec 64} (h : numEq x y = true) : numEq y x = true := by
  simp only [numEq, Bool.and_eq_true, Bool.or_eq_true, beq_iff_eq] at h ⊢
  obtain ⟨⟨hx, hy⟩, rfl | ⟨hzx, hzy⟩⟩ := h
  · exact ⟨⟨hx, hx⟩, Or.inl rfl⟩
  · exact ⟨⟨hy, hx⟩, Or.inr ⟨hzy, hzx⟩⟩

theorem numEq_trans {x y z : BitVec 64} (hxy : numEq x y = true)
    (hyz : numEq y z = true) : numEq x z = true := by
  simp only [numEq, Bool.and_eq_true, Bool.or_eq_true, beq_iff_eq] at hxy hyz ⊢
  obtain ⟨⟨hx, hy⟩, rfl | ⟨hzx, hzy⟩⟩ := hxy
  · exact hyz
  · obtain ⟨⟨-, hz⟩, rfl | ⟨-, hzz⟩⟩ := hyz
    · exact ⟨⟨hx, hz⟩, Or.inr ⟨hzx, hzy⟩⟩
    · exact ⟨⟨hx, hz⟩, Or.inr ⟨hzx, hzz⟩⟩

/-! ## Equality of values -/

/-- `value_eq`: same tag, and either numerically equal numbers or the same
payload. -/
def valueEq (a b : Value) : Bool :=
  if a.type ≠ b.type then false
  else if a.type = .number ∧ numEq a.obj b.obj = true then true
  else a.obj == b.obj

/-- What `value_eq` answers, as one proposition. -/
theorem valueEq_iff {a b : Value} :
    valueEq a b = true ↔
      a.type = b.type ∧ (a.obj = b.obj ∨ (a.type = .number ∧ numEq a.obj b.obj = true)) := by
  unfold valueEq
  by_cases ht : a.type = b.type
  · by_cases hn : a.type = .number ∧ numEq a.obj b.obj = true
    · simp [ht, ht ▸ hn.1, hn.2]
    · rw [if_neg (by simpa using ht), if_neg hn]
      simp [ht, ht ▸ hn]
  · simp [ht]

@[simp] theorem valueEq_refl (a : Value) : valueEq a a = true :=
  valueEq_iff.mpr ⟨rfl, Or.inl rfl⟩

theorem valueEq_symm {a b : Value} (h : valueEq a b = true) : valueEq b a = true := by
  obtain ⟨ht, hp⟩ := valueEq_iff.mp h
  refine valueEq_iff.mpr ⟨ht.symm, hp.imp Eq.symm ?_⟩
  exact fun ⟨hn, he⟩ => ⟨ht ▸ hn, numEq_symm he⟩

theorem valueEq_comm (a b : Value) : valueEq a b = valueEq b a :=
  Bool.eq_iff_iff.mpr ⟨valueEq_symm, valueEq_symm⟩

/-- Transitivity mixes the two disjuncts: bitwise equal patterns may be
replaced inside a numerical equality. -/
theorem valueEq_trans {a b c : Value} (hab : valueEq a b = true)
    (hbc : valueEq b c = true) : valueEq a c = true := by
  obtain ⟨hta, hpa⟩ := valueEq_iff.mp hab
  obtain ⟨htb, hpb⟩ := valueEq_iff.mp hbc
  refine valueEq_iff.mpr ⟨hta.trans htb, ?_⟩
  rcases hpa with hob | ⟨hn, he⟩
  · rw [hob, hta]; exact hpb
  · rcases hpb with hob | ⟨-, he'⟩
    · exact Or.inr ⟨hn, hob ▸ he⟩
    · exact Or.inr ⟨hn, numEq_trans he he'⟩

/-- Equal keys answer every comparison alike. -/
theorem valueEq_congr_left {a b : Value} (h : valueEq a b = true) (c : Value) :
    valueEq a c = valueEq b c :=
  Bool.eq_iff_iff.mpr ⟨valueEq_trans (valueEq_symm h), valueEq_trans h⟩

/-! ## What vectors and maps share -/

/-- `node_create_only(s, len)` followed by filling the slots: `len` is
stored in an `unsigned char`, and no reader goes past the stored length. -/
def nodeCreateOnly {α : Type*} (slots : List α) : List α :=
  slots.take (slots.length % 256)

theorem nodeCreateOnly_of_lt {α : Type*} {xs : List α} (h : xs.length < 256) :
    nodeCreateOnly xs = xs := by
  rw [nodeCreateOnly, Nat.mod_eq_of_lt h, List.take_length]

/-- `cnt` is an `int`. -/
def cntAdd (cnt d : Int) : Outcome Int := do
  Outcome.require (decide (cnt + d < 2 ^ 31))
  pure (cnt + d)

theorem cntAdd_ok {cnt d : Int} (h : cnt + d < 2 ^ 31) : cntAdd cnt d = .ok (cnt + d) := by
  rw [cntAdd, decide_eq_true h]
  rfl

theorem cntAdd_fault {cnt d : Int} (h : 2 ^ 31 ≤ cnt + d) : cntAdd cnt d = .fault := by
  rw [cntAdd, decide_eq_false (Int.not_lt.mpr h)]
  rfl

end Saurus
