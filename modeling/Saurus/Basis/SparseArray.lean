import Mathlib.Algebra.Group.Int.Defs
import Mathlib.Algebra.Group.Nat.Defs
import Mathlib.Tactic.Common

/-!
# Bitmap-compressed sparse arrays

A partial array of width `w` stored densely: a bitmap says which indices
are present and the present elements sit in a list in index order. The
element of index `i` is at position `rank b i`, the number of set bits
below `i`.

`childAt` is the partial array such a pair denotes. The three updates a
trie makes on one slot - overwrite, insert, erase - each have one lemma
that gives the partial array afterwards; nothing above this file looks at
ranks again.
-/

namespace Basis

namespace Sparse

variable {α : Type*} {w : Nat}

/-! ## Ranks -/

/-- Number of set bits of `b` strictly below `i`. -/
def rank (b : BitVec w) (i : Nat) : Nat := b.cpopNatRec i 0

@[simp] theorem rank_zero (b : BitVec w) : rank b 0 = 0 := rfl

theorem rank_succ (b : BitVec w) (i : Nat) :
    rank b (i + 1) = rank b i + (b.getLsbD i).toNat := by
  unfold rank
  rw [BitVec.cpopNatRec_succ, BitVec.cpopNatRec_eq, Nat.zero_add]

theorem rank_le_of_le (b : BitVec w) {i j : Nat} (h : i ≤ j) :
    rank b i ≤ rank b j := by
  induction h with
  | refl => exact Nat.le_refl _
  | step _ ih => rw [Nat.succ_eq_add_one, rank_succ]; omega

theorem rank_lt_of_bit {b : BitVec w} {i j : Nat} (hb : b.getLsbD i = true)
    (h : i < j) : rank b i < rank b j := by
  have hs : rank b (i + 1) = rank b i + 1 := by rw [rank_succ, hb]; rfl
  have : rank b (i + 1) ≤ rank b j := rank_le_of_le b h
  omega

/-- Every number below a rank is the rank of a set bit. -/
theorem exists_bit_of_lt_rank {b : BitVec w} {k : Nat} :
    ∀ {n : Nat}, k < rank b n → ∃ i, b.getLsbD i = true ∧ rank b i = k := by
  intro n
  induction n with
  | zero =>
      intro hk
      exact absurd hk (Nat.not_lt_zero k)
  | succ n ih =>
      intro hk
      rw [rank_succ] at hk
      by_cases hlt : k < rank b n
      · exact ih hlt
      · cases hb : b.getLsbD n with
        | false =>
            rw [hb] at hk
            exact absurd hk hlt
        | true =>
            rw [hb] at hk
            exact ⟨n, hb, by simp at hk; omega⟩

/-- Ranks only look below. -/
theorem rank_congr {b c : BitVec w} {i : Nat}
    (h : ∀ j, j < i → b.getLsbD j = c.getLsbD j) : rank b i = rank c i := by
  induction i with
  | zero => rfl
  | succ i ih =>
      rw [rank_succ, rank_succ, ih fun j hj => h j (by omega), h i (by omega)]

@[simp] theorem rank_zero_width (i : Nat) : rank (0#w) i = 0 :=
  BitVec.cpopNatRec_zero

/-- The rank of the whole width is the population count. -/
theorem toNat_cpop_eq_rank (b : BitVec w) : b.cpop.toNat = rank b w :=
  BitVec.toNat_cpop b

theorem getLsbD_twoPow_sub_one {i : Nat} (hi : i < w) (j : Nat) :
    (BitVec.twoPow w i - 1#w).getLsbD j = decide (j < i) := by
  have hpos : 0 < 2 ^ i := Nat.two_pow_pos i
  have hlt : 2 ^ i < 2 ^ w := Nat.pow_lt_pow_right (by omega) hi
  have hone : 1 % 2 ^ w = 1 := Nat.mod_eq_of_lt (by omega)
  have hval : (BitVec.twoPow w i - 1#w).toNat = 2 ^ i - 1 := by
    rw [BitVec.toNat_sub, BitVec.toNat_twoPow_of_lt hi, BitVec.toNat_ofNat, hone,
      show 2 ^ w - 1 + 2 ^ i = (2 ^ i - 1) + 2 ^ w by omega, Nat.add_mod_right,
      Nat.mod_eq_of_lt (by omega)]
  rw [← BitVec.testBit_toNat, hval, Nat.testBit_two_pow_sub_one]

/-- Masking with `bit - 1` and counting is the rank: the form in which the
position of a slot is computed on machine words. -/
theorem cpop_and_pred_eq_rank (b : BitVec w) {i : Nat} (hi : i < w) :
    (b &&& (BitVec.twoPow w i - 1#w)).cpop.toNat = rank b i := by
  rw [toNat_cpop_eq_rank]
  have hlow : ∀ j, j ≤ i → rank (b &&& (BitVec.twoPow w i - 1#w)) j = rank b j := by
    intro j hj
    refine rank_congr fun k hk => ?_
    rw [BitVec.getLsbD_and, getLsbD_twoPow_sub_one hi]
    simp [show k < i by omega]
  have hhigh : ∀ j, i ≤ j →
      rank (b &&& (BitVec.twoPow w i - 1#w)) j
        = rank (b &&& (BitVec.twoPow w i - 1#w)) i := by
    intro j hj
    induction hj with
    | refl => rfl
    | @step j hij ih =>
        rw [Nat.succ_eq_add_one, rank_succ, ih, BitVec.getLsbD_and,
          getLsbD_twoPow_sub_one hi]
        simp [show ¬ j < i from Nat.not_lt.mpr hij]
  rw [hhigh w (by omega), hlow i (Nat.le_refl i)]

/-! ## One bit changed -/

theorem getLsbD_or_twoPow (b : BitVec w) {i : Nat} (hi : i < w) (j : Nat) :
    (b ||| BitVec.twoPow w i).getLsbD j = (b.getLsbD j || decide (j = i)) := by
  rw [BitVec.getLsbD_or, BitVec.getLsbD_twoPow]
  simp [hi, eq_comm]

theorem getLsbD_andNot_twoPow (b : BitVec w) {i : Nat} (hi : i < w) (j : Nat) :
    (b &&& ~~~ BitVec.twoPow w i).getLsbD j = (b.getLsbD j && !decide (j = i)) := by
  rw [BitVec.getLsbD_and, BitVec.getLsbD_not, BitVec.getLsbD_twoPow]
  by_cases hj : j < w
  · simp [hi, hj, eq_comm]
  · rw [BitVec.getLsbD_of_ge b j (by omega)]; simp

theorem rank_or_twoPow {b : BitVec w} {i : Nat} (hi : i < w)
    (hb : b.getLsbD i = false) (j : Nat) :
    rank (b ||| BitVec.twoPow w i) j = rank b j + (if i < j then 1 else 0) := by
  induction j with
  | zero => simp
  | succ j ih =>
      rw [rank_succ, rank_succ, ih, getLsbD_or_twoPow b hi]
      rcases Nat.lt_trichotomy i j with h | rfl | h
      · simp [h, show i < j + 1 by omega, show j ≠ i by omega]; omega
      · simp [hb]
      · simp [show ¬ i < j by omega, show ¬ i < j + 1 by omega, show j ≠ i by omega]

theorem rank_andNot_twoPow {b : BitVec w} {i : Nat} (hi : i < w)
    (hb : b.getLsbD i = true) (j : Nat) :
    rank (b &&& ~~~ BitVec.twoPow w i) j + (if i < j then 1 else 0) = rank b j := by
  induction j with
  | zero => simp
  | succ j ih =>
      rw [rank_succ, rank_succ, ← ih, getLsbD_andNot_twoPow b hi]
      rcases Nat.lt_trichotomy i j with h | rfl | h
      · simp [h, show i < j + 1 by omega, show j ≠ i by omega]; omega
      · simp [hb]
      · simp [show ¬ i < j by omega, show ¬ i < j + 1 by omega, show j ≠ i by omega]

/-! ## The partial array -/

/-- The element stored for index `i`, if the bitmap has it. -/
def childAt (b : BitVec w) (xs : List α) (i : Nat) : Option α :=
  if b.getLsbD i then xs[rank b i]? else none

/-- The dense list is exactly as long as the bitmap has bits. -/
def Dense (b : BitVec w) (xs : List α) : Prop := xs.length = rank b w

theorem childAt_of_bit {b : BitVec w} {xs : List α} {i : Nat}
    (hb : b.getLsbD i = true) : childAt b xs i = xs[rank b i]? := by
  simp [childAt, hb]

theorem childAt_eq_none {b : BitVec w} {xs : List α} {i : Nat}
    (hb : b.getLsbD i = false) : childAt b xs i = none := by
  simp [childAt, hb]

theorem bit_of_childAt {b : BitVec w} {xs : List α} {i : Nat} {x : α}
    (h : childAt b xs i = some x) : b.getLsbD i = true := by
  by_contra hb
  simp [childAt, hb] at h

theorem lt_of_bit {b : BitVec w} {i : Nat} (hb : b.getLsbD i = true) : i < w := by
  by_contra h
  rw [BitVec.getLsbD_of_ge b i (by omega)] at hb
  cases hb

theorem Dense.rank_lt {b : BitVec w} {xs : List α} (hd : Dense b xs) {i : Nat}
    (hb : b.getLsbD i = true) : rank b i < xs.length := by
  rw [hd]; exact rank_lt_of_bit hb (lt_of_bit hb)

theorem Dense.rank_le {b : BitVec w} {xs : List α} (hd : Dense b xs) {i : Nat}
    (hi : i ≤ w) : rank b i ≤ xs.length := by
  rw [hd]; exact rank_le_of_le b hi

theorem Dense.exists_childAt {b : BitVec w} {xs : List α} (hd : Dense b xs)
    {i : Nat} (hb : b.getLsbD i = true) : ∃ x, childAt b xs i = some x :=
  ⟨xs.get ⟨rank b i, hd.rank_lt hb⟩, by
    rw [childAt_of_bit hb, List.getElem?_eq_getElem (hd.rank_lt hb)]; rfl⟩

/-- Every element of a dense array has a slot. -/
theorem Dense.exists_slot {b : BitVec w} {xs : List α} (hd : Dense b xs) {x : α} (hx : x ∈ xs) :
    ∃ i, childAt b xs i = some x := by
  obtain ⟨k, hk, rfl⟩ := List.mem_iff_getElem.mp hx
  obtain ⟨i, hb, hi⟩ := exists_bit_of_lt_rank (b := b) (n := w) (by rw [← hd]; exact hk)
  exact ⟨i, by rw [childAt_of_bit hb, hi, List.getElem?_eq_getElem hk]⟩

theorem mem_of_childAt {b : BitVec w} {xs : List α} {i : Nat} {x : α}
    (h : childAt b xs i = some x) : x ∈ xs := by
  rw [childAt_of_bit (bit_of_childAt h)] at h
  exact List.mem_of_getElem? h

/-- Distinct present indices sit at distinct positions. -/
theorem rank_ne {b : BitVec w} {i j : Nat} (hi : b.getLsbD i = true)
    (hj : b.getLsbD j = true) (h : i ≠ j) : rank b i ≠ rank b j := by
  rcases Nat.lt_or_gt_of_ne h with hlt | hlt
  · exact Nat.ne_of_lt (rank_lt_of_bit hi hlt)
  · exact Nat.ne_of_gt (rank_lt_of_bit hj hlt)

/-! ## The three updates of a slot -/

theorem Dense.set {b : BitVec w} {xs : List α} (hd : Dense b xs) (k : Nat) (x : α) :
    Dense b (xs.set k x) := by
  rw [Dense, List.length_set]; exact hd

theorem childAt_set {b : BitVec w} {xs : List α} (hd : Dense b xs) {i : Nat}
    (hb : b.getLsbD i = true) (x : α) (j : Nat) :
    childAt b (xs.set (rank b i) x) j = if j = i then some x else childAt b xs j := by
  by_cases hji : j = i
  · subst hji
    rw [childAt_of_bit hb, List.getElem?_set_self (hd.rank_lt hb), if_pos rfl]
  · rw [if_neg hji]
    cases hbj : b.getLsbD j with
    | false => rw [childAt_eq_none hbj, childAt_eq_none hbj]
    | true =>
        rw [childAt_of_bit hbj, childAt_of_bit hbj,
          List.getElem?_set_ne (rank_ne hb hbj (Ne.symm hji))]

theorem Dense.insert {b : BitVec w} {xs : List α} (hd : Dense b xs) {i : Nat}
    (hi : i < w) (hb : b.getLsbD i = false) (x : α) :
    Dense (b ||| BitVec.twoPow w i)
      (xs.take (rank b i) ++ x :: xs.drop (rank b i)) := by
  have hle := hd.rank_le (Nat.le_of_lt hi)
  rw [Dense, rank_or_twoPow hi hb, if_pos hi]
  simp only [List.length_append, List.length_take, List.length_cons, List.length_drop]
  rw [Dense] at hd
  omega

theorem childAt_insert {b : BitVec w} {xs : List α} (hd : Dense b xs) {i : Nat}
    (hi : i < w) (hb : b.getLsbD i = false) (x : α) (j : Nat) :
    childAt (b ||| BitVec.twoPow w i)
        (xs.take (rank b i) ++ x :: xs.drop (rank b i)) j
      = if j = i then some x else childAt b xs j := by
  have hle := hd.rank_le (Nat.le_of_lt hi)
  have htake : (xs.take (rank b i)).length = rank b i := by
    rw [List.length_take]; omega
  unfold childAt
  rw [getLsbD_or_twoPow b hi, rank_or_twoPow hi hb]
  rcases Nat.lt_trichotomy j i with h | rfl | h
  · rw [if_neg (show ¬ i < j by omega), if_neg (show ¬ j = i by omega)]
    simp only [show ¬ j = i by omega, decide_false, Bool.or_false, Nat.add_zero]
    cases hbj : b.getLsbD j with
    | false => rfl
    | true =>
        have hlt := rank_lt_of_bit hbj h
        rw [if_pos rfl, if_pos rfl, List.getElem?_append_left (by omega),
          List.getElem?_take_of_lt hlt]
  · simp [htake]
  · rw [if_pos h, if_neg (show ¬ j = i by omega)]
    simp only [show ¬ j = i by omega, decide_false, Bool.or_false]
    have hge := rank_le_of_le b (Nat.le_of_lt h)
    rw [List.getElem?_append_right (by omega), htake,
      show rank b j + 1 - rank b i = (rank b j - rank b i) + 1 by omega,
      List.getElem?_cons_succ, List.getElem?_drop,
      show rank b i + (rank b j - rank b i) = rank b j by omega]

theorem Dense.erase {b : BitVec w} {xs : List α} (hd : Dense b xs) {i : Nat}
    (hb : b.getLsbD i = true) :
    Dense (b &&& ~~~ BitVec.twoPow w i)
      (xs.take (rank b i) ++ xs.drop (rank b i + 1)) := by
  have hi := lt_of_bit hb
  have hlt := hd.rank_lt hb
  have hr := rank_andNot_twoPow hi hb w
  rw [if_pos hi] at hr
  rw [Dense] at hd ⊢
  simp only [List.length_append, List.length_take, List.length_drop]
  omega

theorem childAt_erase {b : BitVec w} {xs : List α} (hd : Dense b xs) {i : Nat}
    (hb : b.getLsbD i = true) (j : Nat) :
    childAt (b &&& ~~~ BitVec.twoPow w i)
        (xs.take (rank b i) ++ xs.drop (rank b i + 1)) j
      = if j = i then none else childAt b xs j := by
  have hi := lt_of_bit hb
  have hlt := hd.rank_lt hb
  have htake : (xs.take (rank b i)).length = rank b i := by
    rw [List.length_take]; omega
  have hr := rank_andNot_twoPow hi hb j
  unfold childAt
  rw [getLsbD_andNot_twoPow b hi]
  rcases Nat.lt_trichotomy j i with h | rfl | h
  · rw [if_neg (show ¬ i < j by omega)] at hr
    rw [if_neg (show ¬ j = i by omega)]
    simp only [show ¬ j = i by omega, decide_false, Bool.not_false, Bool.and_true]
    cases hbj : b.getLsbD j with
    | false => rfl
    | true =>
        have hjlt := rank_lt_of_bit hbj h
        rw [if_pos rfl, if_pos rfl, List.getElem?_append_left (by omega),
          List.getElem?_take_of_lt (by omega), show rank _ j = rank b j by omega]
  · simp
  · rw [if_pos h] at hr
    rw [if_neg (show ¬ j = i by omega)]
    simp only [show ¬ j = i by omega, decide_false, Bool.not_false, Bool.and_true]
    have hge := rank_lt_of_bit hb h
    rw [List.getElem?_append_right (by omega), htake, List.getElem?_drop,
      show rank b i + 1 + (rank (b &&& ~~~ BitVec.twoPow w i) j - rank b i)
        = rank b j by omega]

/-! ## The full bitmap -/

theorem rank_allOnes {i : Nat} (hi : i ≤ w) : rank (BitVec.allOnes w) i = i := by
  induction i with
  | zero => rfl
  | succ i ih =>
      rw [rank_succ, ih (by omega), BitVec.getLsbD_allOnes]
      simp [show i < w by omega]

theorem childAt_allOnes (xs : List α) {i : Nat} (hi : i < w) :
    childAt (BitVec.allOnes w) xs i = xs[i]? := by
  rw [childAt_of_bit (by rw [BitVec.getLsbD_allOnes]; simpa using hi),
    rank_allOnes (Nat.le_of_lt hi)]

end Sparse

end Basis
