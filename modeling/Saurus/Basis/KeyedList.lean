import Mathlib.Tactic.Common

/-!
# Lists keyed up to an equivalence

A short list of key/value pairs searched front to back with a Boolean key
comparison, as hash buckets are. `lookup` is what such a list means; the
three updates of a bucket (overwrite at the position found, append,
remove at the position found) each have one lemma.
-/

namespace Basis

namespace Keyed

variable {κ α : Type*}

/-- A Boolean comparison that is an equivalence. -/
structure KeyEqv (eqv : κ → κ → Bool) : Prop where
  refl : ∀ a, eqv a a = true
  symm : ∀ {a b}, eqv a b = true → eqv b a = true
  congr : ∀ {a b}, eqv a b = true → ∀ c, eqv a c = eqv b c

variable {eqv : κ → κ → Bool}

theorem KeyEqv.congr_right (he : KeyEqv eqv) {a b : κ} (h : eqv a b = true) (c : κ) :
    eqv c a = eqv c b := by
  rw [Bool.eq_iff_iff]
  constructor
  · intro hc; rw [he.congr hc b]; exact h
  · intro hc; rw [he.congr hc a]; exact he.symm h

/-- The value of the first pair whose key compares equal. -/
def lookup (eqv : κ → κ → Bool) (l : List (κ × α)) (k : κ) : Option α :=
  (l.find? fun p => eqv k p.1).map (·.2)

/-- The position of that pair. -/
def position (eqv : κ → κ → Bool) (l : List (κ × α)) (k : κ) : Option Nat :=
  l.findIdx? fun p => eqv k p.1

/-- No two pairs have equal keys. -/
def Distinct (eqv : κ → κ → Bool) (l : List (κ × α)) : Prop :=
  l.Pairwise fun p q => eqv p.1 q.1 = false

@[simp] theorem lookup_nil (k : κ) : lookup eqv ([] : List (κ × α)) k = none := rfl

theorem lookup_cons (p : κ × α) (l : List (κ × α)) (k : κ) :
    lookup eqv (p :: l) k = if eqv k p.1 = true then some p.2 else lookup eqv l k := by
  unfold lookup
  rw [List.find?_cons]
  cases h : eqv k p.1 <;> simp

theorem position_cons (p : κ × α) (l : List (κ × α)) (k : κ) :
    position eqv (p :: l) k
      = if eqv k p.1 = true then some 0 else (position eqv l k).map (· + 1) := by
  unfold position
  rw [List.findIdx?_cons]

theorem lookup_eq_none_iff {l : List (κ × α)} {k : κ} :
    lookup eqv l k = none ↔ ∀ p ∈ l, eqv k p.1 = false := by
  simp [lookup]

theorem position_eq_none_iff {l : List (κ × α)} {k : κ} :
    position eqv l k = none ↔ lookup eqv l k = none := by
  simp [position, lookup]

/-- The position found is the one whose value `lookup` answers. -/
theorem lookup_of_position {l : List (κ × α)} {k : κ} {i : Nat}
    (h : position eqv l k = some i) :
    ∃ p, l[i]? = some p ∧ eqv k p.1 = true ∧ lookup eqv l k = some p.2 := by
  induction l generalizing i with
  | nil => simp [position] at h
  | cons q l ih =>
      rw [position_cons] at h
      rw [lookup_cons]
      cases hq : eqv k q.1 with
      | true =>
          obtain rfl : i = 0 := by simpa [hq] using h.symm
          exact ⟨q, rfl, hq, rfl⟩
      | false =>
          rw [hq] at h
          obtain ⟨j, hj, rfl⟩ := Option.map_eq_some_iff.mp h
          obtain ⟨p, hp, hk, hl⟩ := ih hj
          exact ⟨p, by simpa using hp, hk, by simpa using hl⟩

theorem position_lt {l : List (κ × α)} {k : κ} {i : Nat}
    (h : position eqv l k = some i) : i < l.length := by
  obtain ⟨p, hp, -⟩ := lookup_of_position h
  exact (List.getElem?_eq_some_iff.mp hp).1

/-! ## Overwriting -/

theorem lookup_set (he : KeyEqv eqv) {l : List (κ × α)} {k : κ} {i : Nat}
    (h : position eqv l k = some i) (v : α) (k' : κ) :
    lookup eqv (l.set i (k, v)) k'
      = if eqv k' k = true then some v else lookup eqv l k' := by
  induction l generalizing i with
  | nil => simp [position] at h
  | cons q l ih =>
      rw [position_cons] at h
      cases hq : eqv k q.1 with
      | true =>
          obtain rfl : i = 0 := by simpa [hq] using h.symm
          rw [List.set_cons_zero, lookup_cons, lookup_cons,
            ← he.congr_right hq k']
          split <;> rfl
      | false =>
          rw [hq] at h
          obtain ⟨j, hj, rfl⟩ := Option.map_eq_some_iff.mp h
          rw [List.set_cons_succ, lookup_cons, lookup_cons, ih hj]
          cases hk : eqv k' k with
          | false => rfl
          | true => rw [he.congr hk q.1, hq]; rfl

theorem Distinct.set (he : KeyEqv eqv) {l : List (κ × α)} (hd : Distinct eqv l)
    {k : κ} {i : Nat} (h : position eqv l k = some i) (v : α) :
    Distinct eqv (l.set i (k, v)) := by
  induction l generalizing i with
  | nil => simpa using hd
  | cons q l ih =>
      obtain ⟨hhd, htl⟩ := List.pairwise_cons.mp hd
      rw [position_cons] at h
      cases hq : eqv k q.1 with
      | true =>
          obtain rfl : i = 0 := by simpa [hq] using h.symm
          rw [List.set_cons_zero]
          exact List.pairwise_cons.mpr
            ⟨fun p hp => by rw [he.congr hq p.1]; exact hhd p hp, htl⟩
      | false =>
          rw [hq] at h
          obtain ⟨j, hj, rfl⟩ := Option.map_eq_some_iff.mp h
          rw [List.set_cons_succ]
          refine List.pairwise_cons.mpr ⟨fun p hp => ?_, ih htl hj⟩
          rcases List.mem_or_eq_of_mem_set hp with hp | rfl
          · exact hhd p hp
          · cases hqk : eqv q.1 k with
            | false => rfl
            | true => rw [he.symm hqk] at hq; cases hq

/-! ## Appending -/

theorem lookup_concat (he : KeyEqv eqv) {l : List (κ × α)} {k : κ}
    (h : lookup eqv l k = none) (v : α) (k' : κ) :
    lookup eqv (l ++ [(k, v)]) k'
      = if eqv k' k = true then some v else lookup eqv l k' := by
  induction l with
  | nil => rw [List.nil_append, lookup_cons]
  | cons q l ih =>
      have hq : eqv k q.1 = false := lookup_eq_none_iff.mp h q (List.mem_cons_self ..)
      have hl : lookup eqv l k = none := by rw [lookup_cons, hq] at h; exact h
      rw [List.cons_append, lookup_cons, lookup_cons, ih hl]
      cases hk : eqv k' k with
      | false => rfl
      | true => rw [he.congr hk q.1, hq]; rfl

theorem Distinct.concat (he : KeyEqv eqv) {l : List (κ × α)} (hd : Distinct eqv l)
    {k : κ} (h : lookup eqv l k = none) (v : α) : Distinct eqv (l ++ [(k, v)]) := by
  refine List.pairwise_append.mpr ⟨hd, List.pairwise_singleton _ _, ?_⟩
  intro p hp q hq
  obtain rfl := List.mem_singleton.mp hq
  have hkp := lookup_eq_none_iff.mp h p hp
  cases hpk : eqv p.1 k with
  | false => rfl
  | true => rw [he.symm hpk] at hkp; cases hkp

/-! ## Removing -/

theorem lookup_remove (he : KeyEqv eqv) {l : List (κ × α)} (hd : Distinct eqv l)
    {k : κ} {i : Nat} (h : position eqv l k = some i) (k' : κ) :
    lookup eqv (l.take i ++ l.drop (i + 1)) k'
      = if eqv k' k = true then none else lookup eqv l k' := by
  induction l generalizing i with
  | nil => simp [position] at h
  | cons q l ih =>
      obtain ⟨hhd, htl⟩ := List.pairwise_cons.mp hd
      rw [position_cons] at h
      cases hq : eqv k q.1 with
      | true =>
          obtain rfl : i = 0 := by simpa [hq] using h.symm
          rw [List.take_zero, List.nil_append, List.drop_succ_cons, List.drop_zero,
            lookup_cons, ← he.congr_right hq k']
          cases hk : eqv k' k with
          | false => rfl
          | true =>
              refine lookup_eq_none_iff.mpr fun p hp => ?_
              rw [he.congr hk p.1, he.congr hq p.1]
              exact hhd p hp
      | false =>
          rw [hq] at h
          obtain ⟨j, hj, rfl⟩ := Option.map_eq_some_iff.mp h
          rw [List.take_succ_cons, List.cons_append, List.drop_succ_cons,
            lookup_cons, lookup_cons, ih htl hj]
          cases hk : eqv k' k with
          | false => rfl
          | true => rw [he.congr hk q.1, hq]; rfl

theorem Distinct.remove {l : List (κ × α)} (hd : Distinct eqv l) (i : Nat) :
    Distinct eqv (l.take i ++ l.drop (i + 1)) := by
  rw [← List.eraseIdx_eq_take_drop_succ]
  exact hd.sublist (List.eraseIdx_sublist l i)

end Keyed

end Basis
