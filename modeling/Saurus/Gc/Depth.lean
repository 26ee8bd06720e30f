import Saurus.Gc.Exact

/-!
# The height of the mark stack

`add_to_gray` asserts that `gc_gray_size` is at most `GC_GRAY_SIZE` and then
writes at that index, so with `GC_GRAY_SIZE` entries the assertion holds and
the write is past the end. On a heap whose pointers lead to objects that is
all that can go wrong, and it does not exactly when marking with a stack
without bound never has more than `GC_GRAY_SIZE` objects pending.
-/

namespace Saurus

open Basis Basis.Marking GcState

/-- All writes of `begin` and `scan` to the mark stack are inside of it. -/
def MarkStackFits (s : GcState) : Prop := ∃ s1 s2, gcBegin s = .ok s1 ∧ scan s1 = .ok s2

/-! ## What a completed call says about the stack -/

theorem addToGray_room {s s' : GcState} {a : Addr} (h : addToGray s a = .ok s')
    (hlen : s.gray.length ≤ graySize) : s'.gray.length ≤ graySize := by
  rw [addToGray] at h
  cases ho : s.lookup a with
  | none => rw [ho] at h; cases h
  | some o =>
      rw [ho] at h
      dsimp only at h
      split_ifs at h with hw
      · cases h
        exact hlen
      · obtain ⟨_, hroom, heq⟩ := Outcome.bind_eq_ok.mp h
        cases heq
        rw [Outcome.require_eq_ok, decide_eq_true_iff] at hroom
        exact hroom

theorem addAllToGray_room : ∀ {as : List Addr} {s s' : GcState}, addAllToGray s as = .ok s' →
    s.gray.length ≤ graySize → s'.gray.length ≤ graySize
  | [], s, s', h, hlen => by
      cases h
      exact hlen
  | a :: as, s, s', h, hlen => by
      rw [addAllToGray, List.foldlM_cons] at h
      obtain ⟨s1, h1, hrest⟩ := Outcome.bind_eq_ok.mp h
      exact addAllToGray_room hrest (addToGray_room h1 hlen)

/-- The object taken off the mark stack is black already. -/
theorem scanObject_done {s s' : GcState} {a : Addr} (h : scanObject s a = .ok s')
    (hd : s.markOf a = .done) : s' = s := by
  rw [scanObject] at h
  cases ho : s.lookup a with
  | none => rw [ho] at h; cases h
  | some o =>
      rw [ho] at h
      dsimp only at h
      have hb : o.flag = .black :=
        GcFlag.mark_inj (g := .black) ((markOf_of_lookup ho).symm.trans hd)
      rw [if_pos hb] at h
      exact (Outcome.ok.inj h).symm

theorem scanObject_room {s s' : GcState} {a : Addr} (h : scanObject s a = .ok s')
    (hlen : s.gray.length ≤ graySize) : s'.gray.length ≤ graySize := by
  rw [scanObject] at h
  cases ho : s.lookup a with
  | none => rw [ho] at h; cases h
  | some o =>
      rw [ho] at h
      dsimp only at h
      split_ifs at h with hb
      · cases h
        exact hlen
      · exact addAllToGray_room h hlen

/-- A `scan` that completes has had room all along. -/
theorem scan_within : ∀ {n : Nat} {s s' : GcState}, scanBound s ≤ n → scan s = .ok s' →
    s.gray.length ≤ graySize → Within s.next graySize s.marker []
  | 0, s, s', hn, _, _ => by
      have hgray : s.gray = [] := List.length_eq_zero_iff.mp (by rw [scanBound] at hn; omega)
      exact within_nil hgray
  | n + 1, s, s', hn, h, hlen => by
      rw [scan_eq] at h
      cases hgray : s.gray with
      | nil => exact within_nil hgray
      | cons a rest =>
          rw [hgray] at h
          obtain ⟨s1, h1, hrest⟩ := Outcome.bind_eq_ok.mp h
          obtain ⟨hcase, hf, hle⟩ := scanObject_ok h1
          have hpop := scanBound_pop hgray
          have hlen' : rest.length ≤ graySize := by
            rw [hgray] at hlen
            exact Nat.le_of_succ_le hlen
          have hw := scan_within (n := n) (by omega) hrest (scanObject_room h1 hlen')
          have hnext : s1.next = s.next := hf.next
          rw [hnext] at hw
          by_cases hd : s.markOf a = .done
          · obtain rfl := scanObject_done h1 hd
            exact Within.of_drop hgray hd hlen hw
          · have hexp := hcase.resolve_left fun hdone => hd hdone.1
            rw [hexp] at hw
            refine Within.of_take hgray hd hlen ?_
            rw [← List.append_nil (s.next a)]
            exact Within.of_meetAll hw

/-! ## When it fits -/

theorem MarkStackFits.within {s : GcState} (h : MarkStackFits s) :
    Within s.next graySize ⟨s.markOf, []⟩ s.roots := by
  obtain ⟨s1, s2, h1, h2⟩ := h
  let s0 : GcState := { s with gray := [] }
  obtain ⟨hm1, hf1, -⟩ := addAllToGray_ok (s := s0) h1
  have hw1 := scan_within (Nat.le_refl _) h2 (addAllToGray_room (s := s0) h1 (Nat.zero_le _))
  rw [hm1, hf1.next] at hw1
  rw [← List.append_nil s.roots]
  exact Within.of_meetAll hw1

/-- **The mark stack.** On a heap whose pointers lead to objects no write of
`begin` and `scan` is past the end of the mark stack exactly when marking
without a bound never has more than `GC_GRAY_SIZE` objects pending. -/
theorem mark_stack_fits_iff {s : GcState} (hrooted : ∀ a ∈ s.roots, Live s a)
    (hfields : FieldsLive s) :
    MarkStackFits s ↔ Within s.next graySize ⟨s.markOf, []⟩ s.roots :=
  ⟨MarkStackFits.within, mark_progress hrooted hfields⟩

/-- Three objects always fit. -/
theorem mark_stack_fits_cyclic : MarkStackFits cyclicHeap :=
  (mark_stack_fits_iff (by decide +kernel) (fieldsLive_of_objects (by decide +kernel))).mpr
    (within_of_length (by decide) (by decide))

/-- A full stack of different strings, and `globals` and `strings`, all of them
old. -/
def fullStack : GcState where
  stack := (List.range 512).map fun i => ptrValue .string (i + 1)
  globals := ptrValue .map 513
  strings := ptrValue .map 514
  objects := ⟨515, .white, .mapEmpty⟩ :: ⟨514, .white, .map 515⟩ :: ⟨513, .white, .map 515⟩ ::
    (List.range 512).map fun i => ⟨i + 1, .white, .string⟩
  numObjects := 515
  gray := []

theorem fullStack_roots : fullStack.roots = (List.range 514).map (· + 1) := by
  decide +kernel

theorem fullStack_live {a : Nat} (ha : 1 ≤ a ∧ a ≤ 515) : Live fullStack a := by
  by_cases hlow : a ≤ 512
  · refine ⟨⟨a, .white, .string⟩, ?_, rfl⟩
    refine List.mem_cons_of_mem _ (List.mem_cons_of_mem _ (List.mem_cons_of_mem _ ?_))
    exact List.mem_map.mpr ⟨a - 1, List.mem_range.mpr (by omega), by rw [Nat.sub_add_cancel ha.1]⟩
  · obtain rfl | rfl | rfl : a = 513 ∨ a = 514 ∨ a = 515 := by omega
    · exact ⟨⟨513, .white, .map 515⟩, by simp [fullStack], rfl⟩
    · exact ⟨⟨514, .white, .map 515⟩, by simp [fullStack], rfl⟩
    · exact ⟨⟨515, .white, .mapEmpty⟩, by simp [fullStack], rfl⟩

theorem fullStack_white {o : GcObject} (ho : o ∈ fullStack.objects) :
    o.flag = .white ∧ ∀ a ∈ children o.body, a = 515 := by
  simp only [fullStack, List.mem_cons, List.mem_map] at ho
  obtain rfl | rfl | rfl | ⟨i, -, rfl⟩ := ho <;> simp [children]

/-- The 513th object has no place on the mark stack. -/
theorem mark_stack_overflow :
    ¬ ∀ s : GcState, (∀ a ∈ s.roots, Live s a) → FieldsLive s → MarkStackFits s := by
  intro h
  have hrooted : ∀ a ∈ fullStack.roots, Live fullStack a := by
    intro a ha
    rw [fullStack_roots] at ha
    obtain ⟨i, hi, rfl⟩ := List.mem_map.mp ha
    rw [List.mem_range] at hi
    exact fullStack_live ⟨Nat.le_add_left .., show i + 1 ≤ 515 by omega⟩
  have hfields : FieldsLive fullStack := fieldsLive_of_objects fun o ho a ha => by
    rw [(fullStack_white ho).2 a ha]
    exact fullStack_live (by decide)
  have hw := (h fullStack hrooted hfields).within
  rw [← List.append_nil fullStack.roots] at hw
  have hle := hw.meetAll.stack
  have hunseen : ∀ a ∈ fullStack.roots, fullStack.markOf a = .unseen := by
    intro a ha
    obtain ⟨o, ho⟩ := live_iff_lookup.mp (hrooted a ha)
    rw [markOf_of_lookup ho, (fullStack_white (lookup_mem ho)).1]
    rfl
  have hnodup : fullStack.roots.Nodup := by
    rw [fullStack_roots]
    exact (List.nodup_range).map fun i j hij => Nat.succ.inj hij
  rw [length_visitAll hnodup hunseen, fullStack_roots, List.length_map, List.length_range] at hle
  exact absurd hle (by decide)

end Saurus
