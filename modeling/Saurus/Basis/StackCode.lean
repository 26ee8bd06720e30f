import Mathlib.Tactic.Common

/-!
# Heights of stack code

Code for a stack machine, of which only this is known: how many values an
instruction takes and puts, where control may go from it, and whether it
stays in the function at all. `Block S code lo hi m` says that the
instructions from `lo` to `hi` are only left at `hi`, take nothing that they
have not put themselves, and leave `m` values more than there were. The
rules below build blocks the way a compiler emits them.
-/

namespace Basis

namespace StackCode

variable {ι : Type*}

/-- What is known of instructions. -/
structure Shape (ι : Type*) where
  takes : ι → Nat
  puts : ι → Nat
  next : Nat → ι → List Nat
  stays : ι → Prop

/-- From `lo` to `hi` the stack has height `H`, whichever way control goes. -/
def Steady (S : Shape ι) (code : List ι) (H : Nat → Nat) (lo hi : Nat) : Prop :=
  ∀ pc, lo ≤ pc → pc < hi → ∃ i, code[pc]? = some i ∧ S.stays i ∧ S.takes i ≤ H pc
    ∧ ∀ t ∈ S.next pc i, lo ≤ t ∧ t ≤ hi ∧ H t = H pc - S.takes i + S.puts i

/-- The code from `lo` to `hi` adds `m` values. -/
def Block (S : Shape ι) (code : List ι) (lo hi m : Nat) : Prop :=
  lo ≤ hi ∧ ∃ H, H lo = 0 ∧ H hi = m ∧ Steady S code H lo hi

variable {S : Shape ι} {code : List ι} {lo mid hi m n : Nat}

theorem Block.nil (S : Shape ι) (code : List ι) (lo : Nat) : Block S code lo lo 0 :=
  ⟨Nat.le_refl _, fun _ => 0, rfl, rfl, fun _ h h' => absurd h' (Nat.not_lt.mpr h)⟩

/-- Longer code keeps the blocks it begins with. -/
theorem Block.append (h : Block S code lo hi m) (hhi : hi ≤ code.length) (more : List ι) :
    Block S (code ++ more) lo hi m := by
  obtain ⟨hle, H, h0, hm, hsteady⟩ := h
  refine ⟨hle, H, h0, hm, fun pc hlo hpc => ?_⟩
  obtain ⟨i, hi', hrest⟩ := hsteady pc hlo hpc
  exact ⟨i, by rwa [List.getElem?_append_left (by omega)], hrest⟩

/-- Only the instructions between its ends matter to a block. -/
theorem Block.congr {code' : List ι} (h : Block S code lo hi m)
    (hcode : ∀ pc, lo ≤ pc → pc < hi → code'[pc]? = code[pc]?) : Block S code' lo hi m := by
  obtain ⟨hle, H, h0, hm, hsteady⟩ := h
  refine ⟨hle, H, h0, hm, fun pc hlo hpc => ?_⟩
  obtain ⟨i, hi', hrest⟩ := hsteady pc hlo hpc
  exact ⟨i, (hcode pc hlo hpc).trans hi', hrest⟩

/-- One more instruction, which goes on behind itself if anywhere. -/
theorem Block.snoc (h : Block S code lo mid m) {i : ι} (hcode : code[mid]? = some i)
    (hstays : S.stays i) (htakes : S.takes i ≤ m) (hnext : ∀ t ∈ S.next mid i, t = mid + 1) :
    Block S code lo (mid + 1) (m - S.takes i + S.puts i) := by
  obtain ⟨hle, H, h0, hm, hsteady⟩ := h
  refine ⟨by omega, fun pc => if pc ≤ mid then H pc else m - S.takes i + S.puts i, ?_, ?_, ?_⟩
  · exact (if_pos hle).trans h0
  · exact if_neg (by omega)
  · intro pc hlo hpc
    dsimp only
    by_cases hmid : pc < mid
    · obtain ⟨j, hj, hst, htakes, hnext⟩ := hsteady pc hlo hmid
      refine ⟨j, hj, hst, by rwa [if_pos (by omega)], fun t ht => ?_⟩
      obtain ⟨htlo, hthi, hheight⟩ := hnext t ht
      exact ⟨htlo, by omega, by rw [if_pos hthi, if_pos (by omega)]; exact hheight⟩
    · obtain rfl : pc = mid := by omega
      refine ⟨i, hcode, hstays, by rw [if_pos (Nat.le_refl _), hm]; exact htakes, fun t ht => ?_⟩
      obtain rfl := hnext t ht
      exact ⟨by omega, Nat.le_refl _, by rw [if_neg (by omega), if_pos (Nat.le_refl _), hm]⟩

/-- Two ways from a test on one value, meeting at the end with the same
height. -/
theorem Block.branch {cond jump : ι} {c j : Nat} (h : Block S code lo c (m + 1))
    (hcond : code[c]? = some cond) (hstay : S.stays cond) (htake : S.takes cond = 1)
    (hput : S.puts cond = 0)
    (hways : ∀ t ∈ S.next c cond, t = c + 1 ∨ t = j + 1)
    (helse : Block S code (c + 1) j n) (hjump : code[j]? = some jump)
    (hstay' : S.stays jump) (htake' : S.takes jump = 0) (hput' : S.puts jump = 0)
    (hway : ∀ t ∈ S.next j jump, t = hi)
    (hthen : Block S code (j + 1) hi n) : Block S code lo hi (m + n) := by
  obtain ⟨hle, H, h0, hm, hsteady⟩ := h
  obtain ⟨hle1, H1, h01, hn1, hsteady1⟩ := helse
  obtain ⟨hle2, H2, h02, hn2, hsteady2⟩ := hthen
  refine ⟨by omega, fun pc => if pc ≤ c then H pc else if pc ≤ j then m + H1 pc else m + H2 pc,
    ?_, ?_, ?_⟩
  · exact (if_pos hle).trans h0
  · dsimp only
    rw [if_neg (by omega), if_neg (by omega), hn2]
  · intro pc hlo hpc
    dsimp only
    rcases Nat.lt_trichotomy pc c with hlt | rfl | hgt
    · obtain ⟨i, hi', hst, htakes, hnext⟩ := hsteady pc hlo hlt
      refine ⟨i, hi', hst, by rwa [if_pos (Nat.le_of_lt hlt)], fun t ht => ?_⟩
      obtain ⟨htlo, hthi, hheight⟩ := hnext t ht
      exact ⟨htlo, by omega, by rw [if_pos hthi, if_pos (Nat.le_of_lt hlt)]; exact hheight⟩
    · refine ⟨cond, hcond, hstay, by rw [if_pos (Nat.le_refl _)]; omega, fun t ht => ?_⟩
      rw [if_pos (Nat.le_refl pc), hm, htake, hput]
      rcases hways t ht with rfl | rfl
      · refine ⟨by omega, by omega, ?_⟩
        rw [if_neg (by omega), if_pos hle1, h01]
        omega
      · refine ⟨by omega, by omega, ?_⟩
        rw [if_neg (by omega), if_neg (by omega), h02]
        omega
    · rcases Nat.lt_trichotomy pc j with hlt | rfl | hgt'
      · obtain ⟨i, hi', hst, htakes, hnext⟩ := hsteady1 pc hgt hlt
        refine ⟨i, hi', hst, by rw [if_neg (by omega), if_pos (by omega)]; omega, fun t ht => ?_⟩
        obtain ⟨htlo, hthi, hheight⟩ := hnext t ht
        refine ⟨by omega, by omega, ?_⟩
        rw [if_neg (by omega), if_pos hthi, if_neg (by omega), if_pos (by omega)]
        omega
      · refine ⟨jump, hjump, hstay', by rw [htake']; exact Nat.zero_le _, fun t ht => ?_⟩
        obtain rfl := hway t ht
        refine ⟨by omega, Nat.le_refl _, ?_⟩
        rw [if_neg (by omega), if_neg (by omega), if_neg (by omega), if_pos (Nat.le_refl _),
          htake', hput', hn1, hn2]
        omega
      · obtain ⟨i, hi', hst, htakes, hnext⟩ := hsteady2 pc (by omega) hpc
        refine ⟨i, hi', hst, by rw [if_neg (by omega), if_neg (by omega)]; omega, fun t ht => ?_⟩
        obtain ⟨htlo, hthi, hheight⟩ := hnext t ht
        refine ⟨by omega, hthi, ?_⟩
        rw [if_neg (by omega), if_neg (by omega), if_neg (by omega), if_neg (by omega)]
        omega

end StackCode

end Basis
