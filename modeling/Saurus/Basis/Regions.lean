import Mathlib.Tactic.Common

/-!
# Structured code

Code that a compiler has laid out by the parts of what it compiles. A region
is the code of one part, with the regions of the parts in it; between them
there are instructions that go on behind themselves, or a test and a jump
around two of three regions (`Laid`). Code that is laid out so is left at its
end only, and no jump goes into a region from outside (`Whole.structured`).

The functions that a part makes have code of their own; `body` is how that of
the function made by a region is laid out.
-/

namespace Basis

namespace Regions

universe u v

/-- Where control goes from an instruction: behind it, there or out of the
function, one of two ways, or nowhere. -/
inductive Kind where
  | plain
  | leave
  | test (target : Nat)
  | jump (target : Nat)
  | ends

namespace Kind

def next (pc : Nat) : Kind → List Nat
  | .plain => [pc + 1]
  | .leave => [pc + 1]
  | .test t => [pc + 1, t]
  | .jump t => [t]
  | .ends => []

def target : Kind → Option Nat
  | .test t => some t
  | .jump t => some t
  | _ => none

/-- Neither a branch nor an end. -/
def Straight (k : Kind) : Prop := k = .plain ∨ k = .leave

theorem Straight.target {k : Kind} (h : k.Straight) : k.target = none := by
  rcases h with rfl | rfl <;> rfl

theorem Straight.next {k : Kind} (h : k.Straight) (pc : Nat) : k.next pc = [pc + 1] := by
  rcases h with rfl | rfl <;> rfl

theorem Straight.ne_ends {k : Kind} (h : k.Straight) : k ≠ .ends := by
  rcases h with rfl | rfl <;>
  · intro h
    cases h

theorem target_mem_next {k : Kind} {t : Nat} (h : k.target = some t) (pc : Nat) :
    t ∈ k.next pc := by
  cases k with
  | plain | leave | ends => cases h
  | test => cases h; exact List.mem_cons_of_mem _ List.mem_cons_self
  | jump => cases h; exact List.mem_cons_self

end Kind

/-- The code of a part: from `lo` to `hi`, with the parts of it in the same
function, and those of the function it makes. -/
inductive Region (α : Type u) where
  | mk (label : α) (lo hi : Nat) (body parts : List (Region α))

namespace Region

variable {α : Type u}

def label : Region α → α
  | .mk label _ _ _ _ => label

def lo : Region α → Nat
  | .mk _ lo _ _ _ => lo

def hi : Region α → Nat
  | .mk _ _ hi _ _ => hi

def parts : Region α → List (Region α)
  | .mk _ _ _ _ parts => parts

mutual

/-- A region and all those in it. -/
def all : Region α → List (Region α)
  | .mk label lo hi body parts => .mk label lo hi body parts :: allOf parts

def allOf : List (Region α) → List (Region α)
  | [] => []
  | r :: rs => r.all ++ allOf rs

end

mutual

/-- The functions made in a region, in order. -/
def bodies : Region α → List (List (Region α))
  | .mk _ _ _ body parts => (if body.isEmpty then [] else [body]) ++ bodiesOf parts

def bodiesOf : List (Region α) → List (List (Region α))
  | [] => []
  | r :: rs => r.bodies ++ bodiesOf rs

end

/-- The regions of a function made in these regions, and so on from there. -/
def at? : List (Region α) → List Nat → Option (List (Region α))
  | rs, [] => some rs
  | rs, i :: path => match (bodiesOf rs)[i]? with
    | some body => at? body path
    | none => none

theorem all_eq (r : Region α) : r.all = r :: allOf r.parts := by
  cases r
  rw [all, parts]

theorem mem_allOf_cons {r s : Region α} {rs : List (Region α)} :
    s ∈ allOf (r :: rs) ↔ s = r ∨ s ∈ allOf r.parts ∨ s ∈ allOf rs := by
  rw [allOf, List.mem_append, all_eq, List.mem_cons, or_assoc]

theorem allOf_append (rs rs' : List (Region α)) : allOf (rs ++ rs') = allOf rs ++ allOf rs' := by
  induction rs with
  | nil => rfl
  | cons r rs ih => rw [List.cons_append, allOf, allOf, ih, List.append_assoc]

theorem mem_branch {c f t s : Region α} :
    s ∈ allOf [c, f, t] ↔ s ∈ allOf [c] ∨ s ∈ allOf [f] ∨ s ∈ allOf [t] := by
  have hsplit : allOf [c, f, t] = allOf [c] ++ (allOf [f] ++ allOf [t]) := by
    rw [← allOf_append, ← allOf_append]
    rfl
  rw [hsplit, List.mem_append, List.mem_append]

theorem bodiesOf_append (rs rs' : List (Region α)) :
    bodiesOf (rs ++ rs') = bodiesOf rs ++ bodiesOf rs' := by
  induction rs with
  | nil => rfl
  | cons r rs ih => rw [List.cons_append, bodiesOf, bodiesOf, ih, List.append_assoc]

end Region

open Region

variable {ι : Type v} {α : Type u}

section Layout

variable (K : ι → Kind) (Cond : α → α → α → α → Prop) (code : List ι)

/-- A test on `c` that goes to `t`, and `f` before it with a jump behind `t`. -/
structure IsBranch (r c f t : Region α) : Prop where
  parts : r.parts = [c, f, t]
  cond : Cond r.label c.label f.label t.label
  lo : r.lo = c.lo
  test : ∃ i, code[c.hi]? = some i ∧ K i = .test t.lo
  first : f.lo = c.hi + 1
  jump : ∃ i, code[f.hi]? = some i ∧ K i = .jump t.hi
  second : t.lo = f.hi + 1
  hi : r.hi = t.hi

/-- The code from `lo` to `hi` is that of the regions, with instructions before,
between and behind them. -/
inductive Laid : Nat → Nat → List (Region α) → Prop where
  | nil (lo : Nat) : Laid lo lo []
  | inst {lo hi : Nat} {i : ι} {rs : List (Region α)} : code[lo]? = some i → (K i).Straight →
      Laid (lo + 1) hi rs → Laid lo hi rs
  | region {r : Region α} {hi : Nat} {rs : List (Region α)} : Laid r.lo r.hi r.parts →
      Laid r.hi hi rs → Laid r.lo hi (r :: rs)
  | branch {r c f t : Region α} {hi : Nat} {rs : List (Region α)} :
      IsBranch K Cond code r c f t → Laid c.lo c.hi [c] → Laid f.lo f.hi [f] →
      Laid t.lo t.hi [t] → Laid r.hi hi rs → Laid r.lo hi (r :: rs)

/-- Every path from here comes to an end of the function, or leaves it. -/
inductive Ends : Nat → Prop where
  | stop {pc : Nat} {i : ι} : code[pc]? = some i → K i = .ends ∨ K i = .leave → Ends pc
  | step {pc : Nat} {i : ι} : code[pc]? = some i → K i ≠ .ends → K i ≠ .leave →
      (∀ t ∈ (K i).next pc, Ends t) → Ends pc

/-- A function: regions and instructions, and one that ends it. -/
def Whole (rs : List (Region α)) : Prop :=
  ∃ n, Laid K Cond code 0 n rs ∧ code.length = n + 1 ∧ ∃ i, code[n]? = some i ∧ K i = .ends

/-- The code of a function goes by its regions. -/
structure Structured (rs : List (Region α)) : Prop where
  test : ∀ (pc : Nat) (i : ι) target, code[pc]? = some i → K i = .test target →
    pc < target ∧ ∃ r ∈ allOf rs, ∃ c f t,
      IsBranch K Cond code r c f t ∧ pc = c.hi ∧ target = t.lo
  jump : ∀ (pc : Nat) (i : ι) target, code[pc]? = some i → K i = .jump target →
    pc < target ∧ ∃ r ∈ allOf rs, ∃ c f t,
      IsBranch K Cond code r c f t ∧ pc = f.hi ∧ target = t.hi
  inside : ∀ (pc : Nat) (i : ι) next, code[pc]? = some i → next ∈ (K i).next pc →
    pc < next ∧ next < code.length
  within : ∀ r ∈ allOf rs, r.lo ≤ r.hi ∧ r.hi < code.length
  apart : ∀ r ∈ allOf rs, ∀ (pc : Nat) (i : ι) target, code[pc]? = some i →
    (K i).target = some target → pc < r.lo ∨ r.hi ≤ pc → ¬ (r.lo < target ∧ target < r.hi)
  begins : 0 < code.length
  ends : ∀ pc, pc < code.length → Ends K code pc

end Layout

variable {K : ι → Kind} {Cond : α → α → α → α → Prop} {code code' : List ι} {lo mid hi : Nat}
  {rs rs' : List (Region α)}

/-! ## Putting code together -/

/-- Where the parts of a branch are. -/
theorem IsBranch.places {r c f t : Region α} (h : IsBranch K Cond code r c f t) :
    r.lo = c.lo ∧ f.lo = c.hi + 1 ∧ t.lo = f.hi + 1 ∧ r.hi = t.hi :=
  ⟨h.lo, h.first, h.second, h.hi⟩

theorem Laid.le (h : Laid K Cond code lo hi rs) : lo ≤ hi := by
  induction h with
  | nil => exact Nat.le_refl _
  | inst _ _ _ ih => exact Nat.le_of_succ_le ih
  | region _ _ ih1 ih2 => exact Nat.le_trans ih1 ih2
  | branch hb _ _ _ _ ihc ihf iht ih =>
      have := hb.places
      omega

theorem IsBranch.congr {r c f t : Region α} (h : IsBranch K Cond code r c f t)
    (hc : code'[c.hi]? = code[c.hi]?) (hf : code'[f.hi]? = code[f.hi]?) :
    IsBranch K Cond code' r c f t :=
  { h with test := hc ▸ h.test, jump := hf ▸ h.jump }

/-- Only the instructions between its ends matter to laid code. -/
theorem Laid.congr (h : Laid K Cond code lo hi rs)
    (hcode : ∀ pc, lo ≤ pc → pc < hi → code'[pc]? = code[pc]?) : Laid K Cond code' lo hi rs := by
  induction h with
  | nil lo => exact .nil lo
  | inst hi' hstraight hrest ih =>
      have hle := hrest.le
      exact .inst ((hcode _ (Nat.le_refl _) (by omega)).trans hi') hstraight
        (ih fun pc hlo hhi => hcode pc (by omega) hhi)
  | region hparts hrest ih1 ih2 =>
      have hle1 := hparts.le
      have hle2 := hrest.le
      exact .region (ih1 fun pc hlo hhi => hcode pc hlo (by omega))
        (ih2 fun pc hlo hhi => hcode pc (by omega) hhi)
  | branch hb hc hf ht hrest ihc ihf iht ih =>
      have hlec := hc.le
      have hlef := hf.le
      have hlet := ht.le
      have hle := hrest.le
      have hplaces := hb.places
      exact .branch (hb.congr (hcode _ (by omega) (by omega)) (hcode _ (by omega) (by omega)))
        (ihc fun pc _ _ => hcode pc (by omega) (by omega))
        (ihf fun pc _ _ => hcode pc (by omega) (by omega))
        (iht fun pc _ _ => hcode pc (by omega) (by omega))
        (ih fun pc _ _ => hcode pc (by omega) (by omega))

theorem Laid.append (h : Laid K Cond code lo mid rs) (h' : Laid K Cond code mid hi rs') :
    Laid K Cond code lo hi (rs ++ rs') := by
  induction h with
  | nil => exact h'
  | inst hi' hstraight _ ih => exact .inst hi' hstraight (ih h')
  | region hparts _ _ ih => exact .region hparts (ih h')
  | branch hb hc hf ht _ _ _ _ ih => exact .branch hb hc hf ht (ih h')

theorem Laid.one {r : Region α} (h : Laid K Cond code r.lo r.hi r.parts) :
    Laid K Cond code r.lo r.hi [r] := .region h (.nil _)

/-! ## Where control goes -/

/-- Control goes forward, and out of laid code at its end only. -/
theorem Laid.forward (h : Laid K Cond code lo hi rs) {pc : Nat} (hlo : lo ≤ pc) (hhi : pc < hi) :
    ∃ i, code[pc]? = some i ∧ K i ≠ .ends ∧ ∀ t ∈ (K i).next pc, pc < t ∧ t ≤ hi := by
  induction h with
  | nil => omega
  | @inst lo hi i rs hi' hstraight hrest ih =>
      have hle := hrest.le
      by_cases hpc : pc = lo
      · subst hpc
        refine ⟨i, hi', hstraight.ne_ends, fun t ht => ?_⟩
        rw [hstraight.next, List.mem_singleton] at ht
        omega
      · exact ih (by omega) hhi
  | @region r hi rs hparts hrest ih1 ih2 =>
      have hle := hrest.le
      by_cases hpc : pc < r.hi
      · obtain ⟨i, hi', hends, hnext⟩ := ih1 hlo hpc
        exact ⟨i, hi', hends, fun t ht => ⟨(hnext t ht).1, Nat.le_trans (hnext t ht).2 hle⟩⟩
      · exact ih2 (by omega) hhi
  | @branch r c f t hi rs hb hc hf ht hrest ihc ihf iht ih =>
      have hlec := hc.le
      have hlef := hf.le
      have hlet := ht.le
      have hle := hrest.le
      have hplaces := hb.places
      have hpart : ∀ {m : Nat}, m ≤ hi → (∃ i, code[pc]? = some i ∧ K i ≠ .ends
          ∧ ∀ t ∈ (K i).next pc, pc < t ∧ t ≤ m) → ∃ i, code[pc]? = some i ∧ K i ≠ .ends
          ∧ ∀ t ∈ (K i).next pc, pc < t ∧ t ≤ hi := by
        rintro m hm ⟨i, hi', hends, hnext⟩
        exact ⟨i, hi', hends, fun t ht => ⟨(hnext t ht).1, Nat.le_trans (hnext t ht).2 hm⟩⟩
      rcases Nat.lt_trichotomy pc c.hi with hlt | rfl | hgt
      · exact hpart (by omega) (ihc (by omega) hlt)
      · obtain ⟨i, hi', hk⟩ := hb.test
        refine ⟨i, hi', by rw [hk]; simp, fun t' ht' => ?_⟩
        rw [hk, Kind.next, List.mem_cons, List.mem_singleton] at ht'
        omega
      · rcases Nat.lt_trichotomy pc f.hi with hlt | rfl | hgt'
        · exact hpart (by omega) (ihf (by omega) hlt)
        · obtain ⟨i, hi', hk⟩ := hb.jump
          refine ⟨i, hi', by rw [hk]; simp, fun t' ht' => ?_⟩
          rw [hk, Kind.next, List.mem_singleton] at ht'
          omega
        · by_cases hpc : pc < t.hi
          · exact hpart (by omega) (iht (by omega) hpc)
          · exact ih (by omega) hhi

/-- A branch in laid code goes forward. -/
theorem Laid.target (h : Laid K Cond code lo hi rs) {pc target : Nat} {i : ι} (hlo : lo ≤ pc)
    (hhi : pc < hi) (hcode : code[pc]? = some i) (htarget : (K i).target = some target) :
    pc < target ∧ target ≤ hi := by
  obtain ⟨j, hj, -, hnext⟩ := h.forward hlo hhi
  obtain rfl : j = i := Option.some.inj (hj.symm.trans hcode)
  exact hnext target (Kind.target_mem_next htarget pc)

/-- Regions are inside what they are laid in. -/
theorem Laid.bounds (h : Laid K Cond code lo hi rs) {r : Region α} (hr : r ∈ allOf rs) :
    lo ≤ r.lo ∧ r.lo ≤ r.hi ∧ r.hi ≤ hi := by
  induction h with
  | nil => cases hr
  | inst _ _ _ ih =>
      have := ih hr
      omega
  | @region s hi rs hparts hrest ih1 ih2 =>
      have hle1 := hparts.le
      have hle2 := hrest.le
      rcases mem_allOf_cons.mp hr with rfl | hr | hr
      · omega
      · have := ih1 hr
        omega
      · have := ih2 hr
        omega
  | @branch s c f t hi rs hb hc hf ht hrest ihc ihf iht ih =>
      have hlec := hc.le
      have hlef := hf.le
      have hlet := ht.le
      have hle := hrest.le
      have hplaces := hb.places
      rcases mem_allOf_cons.mp hr with rfl | hr | hr
      · omega
      · rw [hb.parts] at hr
        rcases mem_branch.mp hr with hr | hr | hr
        · have := ihc hr
          omega
        · have := ihf hr
          omega
        · have := iht hr
          omega
      · have := ih hr
        omega

/-- A branch in laid code is the test or the jump of one of its regions. -/
theorem Laid.branchOf (h : Laid K Cond code lo hi rs) {pc target : Nat} {i : ι} (hlo : lo ≤ pc)
    (hhi : pc < hi) (hcode : code[pc]? = some i) (htarget : (K i).target = some target) :
    ∃ r ∈ allOf rs, ∃ c f t, IsBranch K Cond code r c f t
      ∧ (pc = c.hi ∧ K i = .test t.lo ∨ pc = f.hi ∧ K i = .jump t.hi) := by
  induction h with
  | nil => omega
  | @inst lo hi j rs hj hstraight _ ih =>
      by_cases hpc : pc = lo
      · subst hpc
        obtain rfl : j = i := Option.some.inj (hj.symm.trans hcode)
        cases hstraight.target.symm.trans htarget
      · exact ih (by omega) hhi
  | @region s hi rs _ _ ih1 ih2 =>
      by_cases hpc : pc < s.hi
      · obtain ⟨r, hr, hbranch⟩ := ih1 hlo hpc
        exact ⟨r, mem_allOf_cons.mpr (Or.inr (Or.inl hr)), hbranch⟩
      · obtain ⟨r, hr, hbranch⟩ := ih2 (by omega) hhi
        exact ⟨r, mem_allOf_cons.mpr (Or.inr (Or.inr hr)), hbranch⟩
  | @branch s c f t hi rs hb hc hf ht _ ihc ihf iht ih =>
      have hplaces := hb.places
      have hpart : ∀ {part}, (∀ r ∈ allOf part, r ∈ allOf [c, f, t]) →
          (∃ r ∈ allOf part, ∃ c f t, IsBranch K Cond code r c f t
            ∧ (pc = c.hi ∧ K i = .test t.lo ∨ pc = f.hi ∧ K i = .jump t.hi)) →
          ∃ r ∈ allOf (s :: rs), ∃ c f t, IsBranch K Cond code r c f t
            ∧ (pc = c.hi ∧ K i = .test t.lo ∨ pc = f.hi ∧ K i = .jump t.hi) := by
        rintro part hsub ⟨r, hr, hbranch⟩
        exact ⟨r, mem_allOf_cons.mpr (Or.inr (Or.inl (hb.parts ▸ hsub r hr))), hbranch⟩
      have hself : s ∈ allOf (s :: rs) := mem_allOf_cons.mpr (Or.inl rfl)
      rcases Nat.lt_trichotomy pc c.hi with hlt | rfl | hgt
      · exact hpart (fun r hr => mem_branch.mpr (Or.inl hr)) (ihc (by omega) hlt)
      · obtain ⟨j, hj, hk⟩ := hb.test
        obtain rfl : j = i := Option.some.inj (hj.symm.trans hcode)
        exact ⟨s, hself, c, f, t, hb, Or.inl ⟨rfl, hk⟩⟩
      · rcases Nat.lt_trichotomy pc f.hi with hlt | rfl | hgt'
        · exact hpart (fun r hr => mem_branch.mpr (Or.inr (Or.inl hr))) (ihf (by omega) hlt)
        · obtain ⟨j, hj, hk⟩ := hb.jump
          obtain rfl : j = i := Option.some.inj (hj.symm.trans hcode)
          exact ⟨s, hself, c, f, t, hb, Or.inr ⟨rfl, hk⟩⟩
        · by_cases hpc : pc < t.hi
          · exact hpart (fun r hr => mem_branch.mpr (Or.inr (Or.inr hr))) (iht (by omega) hpc)
          · obtain ⟨r, hr, hbranch⟩ := ih (by omega) hhi
            exact ⟨r, mem_allOf_cons.mpr (Or.inr (Or.inr hr)), hbranch⟩

/-- A branch goes into no region from outside, but to where it begins. -/
theorem Laid.apart (h : Laid K Cond code lo hi rs) {r : Region α} (hr : r ∈ allOf rs)
    {pc target : Nat} {i : ι} (hlo : lo ≤ pc) (hhi : pc < hi) (hcode : code[pc]? = some i)
    (htarget : (K i).target = some target) (hout : pc < r.lo ∨ r.hi ≤ pc) :
    ¬ (r.lo < target ∧ target < r.hi) := by
  rintro ⟨hin, hin'⟩
  have hforward := (h.target hlo hhi hcode htarget).1
  induction h with
  | nil => cases hr
  | @inst lo hi j rs hj hstraight hrest ih =>
      by_cases hpc : pc = lo
      · subst hpc
        obtain rfl : j = i := Option.some.inj (hj.symm.trans hcode)
        cases hstraight.target.symm.trans htarget
      · exact ih hr (by omega) hhi
  | @region s hi rs hparts hrest ih1 ih2 =>
      by_cases hpc : pc < s.hi
      · have hto := (hparts.target hlo hpc hcode htarget).2
        rcases mem_allOf_cons.mp hr with rfl | hr | hr
        · omega
        · exact ih1 hr hlo hpc
        · have := hrest.bounds hr
          omega
      · rcases mem_allOf_cons.mp hr with rfl | hr | hr
        · omega
        · have := hparts.bounds hr
          omega
        · exact ih2 hr (by omega) hhi
  | @branch s c f t hi rs hb hc hf ht hrest ihc ihf iht ih =>
      have hlec := hc.le
      have hlef := hf.le
      have hlet := ht.le
      have hplaces := hb.places
      -- where the branch goes from each place
      have hto : (pc < c.hi → target ≤ c.hi) ∧ (pc = c.hi → target = t.lo)
          ∧ (f.lo ≤ pc → pc < f.hi → target ≤ f.hi) ∧ (pc = f.hi → target = t.hi)
          ∧ (t.lo ≤ pc → pc < t.hi → target ≤ t.hi) := by
        refine ⟨fun h => (hc.target (by omega) h hcode htarget).2, fun h => ?_,
          fun h h' => (hf.target h h' hcode htarget).2, fun h => ?_,
          fun h h' => (ht.target h h' hcode htarget).2⟩
        · obtain ⟨j, hj, hk⟩ := hb.test
          obtain rfl : j = i := Option.some.inj ((h ▸ hj).symm.trans hcode)
          exact Option.some.inj (htarget.symm.trans (hk ▸ rfl))
        · obtain ⟨j, hj, hk⟩ := hb.jump
          obtain rfl : j = i := Option.some.inj ((h ▸ hj).symm.trans hcode)
          exact Option.some.inj (htarget.symm.trans (hk ▸ rfl))
      rcases mem_allOf_cons.mp hr with rfl | hr | hr
      · by_cases hpc : pc < r.hi <;> omega
      · rw [hb.parts] at hr
        rcases mem_branch.mp hr with hr | hr | hr
        · have hin := hc.bounds hr
          by_cases hpc : pc < c.hi
          · exact ihc hr (by omega) hpc
          · omega
        · have hin := hf.bounds hr
          by_cases hpc : f.lo ≤ pc ∧ pc < f.hi
          · exact ihf hr hpc.1 hpc.2
          · omega
        · have hin := ht.bounds hr
          by_cases hpc : t.lo ≤ pc ∧ pc < t.hi
          · exact iht hr hpc.1 hpc.2
          · omega
      · have hin := hrest.bounds hr
        by_cases hpc : pc < s.hi
        · omega
        · exact ih hr (by omega) hhi

/-! ## Whole functions -/

/-- Where a path that is inside laid code goes to, if its end does. -/
theorem Laid.ends (h : Laid K Cond code lo hi rs) (hend : Ends K code hi) {pc : Nat}
    (hlo : lo ≤ pc) (hhi : pc ≤ hi) : Ends K code pc := by
  obtain ⟨left, hleft⟩ : ∃ left, left = hi - pc := ⟨_, rfl⟩
  induction left using Nat.strongRecOn generalizing pc with
  | ind left ih =>
      rcases Nat.eq_or_lt_of_le hhi with rfl | hlt
      · exact hend
      · obtain ⟨i, hcode, hnot, hnext⟩ := h.forward hlo hlt
        by_cases hleave : K i = .leave
        · exact .stop hcode (Or.inr hleave)
        · refine .step hcode hnot hleave fun t ht => ?_
          have hforward := hnext t ht
          exact ih (hi - t) (by omega) (by omega) hforward.2 rfl

theorem Whole.structured (h : Whole K Cond code rs) : Structured K Cond code rs := by
  obtain ⟨n, hlaid, hlength, last, hlast, hkind⟩ := h
  have hbefore : ∀ {pc : Nat} {i : ι}, code[pc]? = some i → K i ≠ .ends → pc < n := by
    intro pc i hcode hnot
    have hpc := (List.getElem?_eq_some_iff.mp hcode).1
    rcases Nat.lt_or_eq_of_le (Nat.lt_succ_iff.mp (hlength ▸ hpc)) with hlt | rfl
    · exact hlt
    · obtain rfl : last = i := Option.some.inj (hlast.symm.trans hcode)
      exact absurd hkind hnot
  constructor
  case test =>
    intro pc i target hcode hk
    have htarget : (K i).target = some target := hk ▸ rfl
    have hpc := hbefore hcode (hk ▸ fun h => by cases h)
    refine ⟨(hlaid.target (Nat.zero_le _) hpc hcode htarget).1, ?_⟩
    obtain ⟨r, hr, c, f, t, hb, ⟨hat, hk'⟩ | ⟨-, hk'⟩⟩ :=
      hlaid.branchOf (Nat.zero_le _) hpc hcode htarget
    · rw [hk] at hk'
      cases hk'
      exact ⟨r, hr, c, f, t, hb, hat, rfl⟩
    · rw [hk] at hk'
      cases hk'
  case jump =>
    intro pc i target hcode hk
    have htarget : (K i).target = some target := hk ▸ rfl
    have hpc := hbefore hcode (hk ▸ fun h => by cases h)
    refine ⟨(hlaid.target (Nat.zero_le _) hpc hcode htarget).1, ?_⟩
    obtain ⟨r, hr, c, f, t, hb, ⟨-, hk'⟩ | ⟨hat, hk'⟩⟩ :=
      hlaid.branchOf (Nat.zero_le _) hpc hcode htarget
    · rw [hk] at hk'
      cases hk'
    · rw [hk] at hk'
      cases hk'
      exact ⟨r, hr, c, f, t, hb, hat, rfl⟩
  case inside =>
    intro pc i next hcode hnext
    have hpc := hbefore hcode fun hk => by
      rw [hk] at hnext
      cases hnext
    obtain ⟨j, hj, -, hforward⟩ := hlaid.forward (Nat.zero_le _) hpc
    obtain rfl : j = i := Option.some.inj (hj.symm.trans hcode)
    have := hforward next hnext
    omega
  case within =>
    intro r hr
    have := hlaid.bounds hr
    omega
  case apart =>
    intro r hr pc i target hcode htarget hout
    have hpc := hbefore hcode fun hk => by
      rw [hk] at htarget
      cases htarget
    exact hlaid.apart hr (Nat.zero_le _) hpc hcode htarget hout
  case begins => exact hlength ▸ Nat.succ_pos n
  case ends =>
    intro pc hpc
    exact hlaid.ends (.stop hlast (Or.inl hkind)) (Nat.zero_le _)
      (Nat.le_of_lt_succ (Nat.lt_of_lt_of_eq hpc hlength))

end Regions

end Basis
