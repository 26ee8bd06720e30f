import Saurus.Map.Collide

/-!
# Equal values and their hashes

A map finds a key again only if equal keys hash alike. `value_eq` compares
numbers by value and everything else by its bits; `hash_value` goes by the
bits throughout, so the two agree on all values but the zeros.
-/

namespace Saurus

open Basis

theorem numIsZero_iff {x : BitVec 64} :
    numIsZero x = true ↔ x = 0#64 ∨ x = 0x8000000000000000#64 := by
  have hmask : (0x7fffffffffffffff : Nat) = 2 ^ 63 - 1 := rfl
  rw [numIsZero, numAbs, beq_iff_eq, ← BitVec.toNat_inj, ← BitVec.toNat_inj, ← BitVec.toNat_inj,
    BitVec.toNat_and, BitVec.toNat_ofNat, BitVec.toNat_ofNat, BitVec.toNat_ofNat,
    Nat.mod_eq_of_lt (by decide), Nat.mod_eq_of_lt (by decide), Nat.mod_eq_of_lt (by decide), hmask,
    Nat.and_two_pow_sub_one_eq_mod]
  have := x.isLt
  omega

/-- Both are zero, one of them negative. -/
def OppositeZeros (a b : Value) : Prop :=
  a.type = .number ∧ b.type = .number ∧ numIsZero a.obj = true ∧ numIsZero b.obj = true
    ∧ a.obj ≠ b.obj

theorem OppositeZeros.valueEq {a b : Value} (h : OppositeZeros a b) : valueEq a b = true := by
  obtain ⟨hta, htb, hza, hzb, -⟩ := h
  refine valueEq_iff.mpr ⟨hta.trans htb.symm, Or.inr ⟨hta, ?_⟩⟩
  have hnan : ∀ x, numIsZero x = true → numIsNaN x = false := by
    intro x hx
    rcases numIsZero_iff.mp hx with rfl | rfl <;> decide
  rw [numEq, hnan _ hza, hnan _ hzb, hza, hzb]
  simp

/-- Only zeros are equal without being the same. -/
theorem eq_of_valueEq {a b : Value} (h : valueEq a b = true) (hz : ¬ OppositeZeros a b) :
    a = b := by
  obtain ⟨ht, hobj⟩ := valueEq_iff.mp h
  have hobj : a.obj = b.obj := by
    by_contra hne
    obtain ⟨hn, hnum⟩ := hobj.resolve_left hne
    simp only [numEq, Bool.and_eq_true, Bool.or_eq_true, beq_iff_eq] at hnum
    obtain ⟨hza, hzb⟩ := hnum.2.resolve_left hne
    exact hz ⟨hn, ht ▸ hn, hza, hzb, hne⟩
  cases a
  cases b
  exact congr (congrArg Value.mk ht) hobj

theorem hashValue_number (w : World) (obj : BitVec 64) :
    hashValue w ⟨.number, obj⟩ = .ok (murmur (valueBytes obj) 4#32) := rfl

theorem OppositeZeros.hashValue_ne {a b : Value} (h : OppositeZeros a b) (w : World) :
    hashValue w a ≠ hashValue w b := by
  obtain ⟨hta, htb, hza, hzb, hne⟩ := h
  obtain ⟨ta, oa⟩ := a
  obtain ⟨tb, ob⟩ := b
  obtain rfl : ta = .number := hta
  obtain rfl : tb = .number := htb
  rw [hashValue_number, hashValue_number]
  intro heq
  have heq := Outcome.ok.inj heq
  have hdiffer : murmur (valueBytes 0#64) 4#32
      ≠ murmur (valueBytes 0x8000000000000000#64) 4#32 := by decide +kernel
  rcases numIsZero_iff.mp hza with rfl | rfl <;> rcases numIsZero_iff.mp hzb with rfl | rfl
  · exact hne rfl
  · exact hdiffer heq
  · exact hdiffer heq.symm
  · exact hne rfl

/-- `a` and `b` are one key for a map: they hash alike, and what is inserted
under `a` is found under `b`. -/
structure Coherent (w : World) (a b : Value) : Prop where
  hash : hashValue w a = hashValue w b
  found : ∀ {m m' : HMap} {f : KeyMap} {val : Value} {h h' : BitVec 32}, Represents m f →
    Bounded (f.insert (mapKey h a) val) → hashValue w a = .ok h → hashValue w b = .ok h' →
    mapInsert m a h val = .ok m' → ∃ v, mapGet m' b h' = .ok v ∧ valueEq val v = true

theorem coherent_self (w : World) (a : Value) : Coherent w a a where
  hash := rfl
  found := by
    intro m m' f val h h' hr hb hh hh' hm
    obtain rfl := Outcome.ok.inj (hh.symm.trans hh')
    obtain ⟨m1, h1, hr1⟩ := mapInsert_ok hr (hb.1 h) hb.2
    obtain rfl := Outcome.ok.inj (hm.symm.trans h1)
    obtain ⟨v, hv, heq⟩ := hr1.found h a val (Finmap.lookup_insert ..)
    exact ⟨v, by rw [mapGet, hv]; rfl, heq⟩

/-- **Hash coherence.** `value_eq` is an equivalence, and equal values are
one key for every map, unless they are the two zeros. -/
theorem hash_coherent_iff (w : World) :
    Equivalence (fun a b => valueEq a b = true)
      ∧ ∀ a b, (valueEq a b = true → Coherent w a b) ↔ ¬ OppositeZeros a b := by
  refine ⟨⟨valueEq_refl, valueEq_symm, valueEq_trans⟩, fun a b => ⟨fun h hz => ?_, fun hz h => ?_⟩⟩
  · exact hz.hashValue_ne w (h hz.valueEq).hash
  · rw [eq_of_valueEq h hz]
    exact coherent_self w b

/-- Zero is not found again under negative zero. -/
theorem zeros_incoherent :
    valueEq ⟨.number, 0#64⟩ ⟨.number, 0x8000000000000000#64⟩ = true
      ∧ hashValue ⟨[], mapCreateEmpty, 0, 0, 0⟩ ⟨.number, 0#64⟩
        ≠ hashValue ⟨[], mapCreateEmpty, 0, 0, 0⟩ ⟨.number, 0x8000000000000000#64⟩
      ∧ ∃ m, mapInsert mapCreateEmpty ⟨.number, 0#64⟩ (murmur (valueBytes 0#64) 4#32)
          ⟨.boolean, 1#64⟩ = .ok m
        ∧ mapGet m ⟨.number, 0x8000000000000000#64⟩
            (murmur (valueBytes 0x8000000000000000#64) 4#32) = .ok ⟨.inv, 0#64⟩ := by
  have hz : OppositeZeros ⟨.number, 0#64⟩ ⟨.number, 0x8000000000000000#64⟩ :=
    ⟨rfl, rfl, by decide, by decide, by decide⟩
  exact ⟨hz.valueEq, hz.hashValue_ne _, _, rfl, by decide +kernel⟩

end Saurus
