import Mathlib.Data.List.Pairwise
import Saurus.Basis.Outcome

/-!
# Blocks of an allocator

The blocks an allocator has handed out and not taken back, each with its
range of addresses. The allocator may choose any range that meets no live
block; for size zero it gives the null pointer. Releasing anything but null
or the start of a live block has no meaning.

`Apart` is what every allocation keeps. `allocatesAll_fresh` and
`releaseAll_ok` are the rules for blocks taken and given back one after the
other: those taken are new and different, and different live blocks can all be
given back.
-/

namespace Basis

/-- A block: `size` addresses from `start` on. -/
structure Block where
  start : Nat
  size : Nat
deriving Repr, DecidableEq

namespace Block

/-- The address is in the block. -/
def Has (b : Block) (p : Nat) : Prop := b.start ≤ p ∧ p < b.start + b.size

/-- The blocks have no address in common. -/
def Disjoint (b c : Block) : Prop := b.start + b.size ≤ c.start ∨ c.start + c.size ≤ b.start

instance : Std.Symm Disjoint := ⟨fun _ _ h => Or.symm h⟩

instance (b c : Block) : Decidable (b.Disjoint c) := inferInstanceAs (Decidable (_ ∨ _))

theorem Disjoint.not_has {b c : Block} (h : b.Disjoint c) {p : Nat} (hb : b.Has p) : ¬ c.Has p := by
  rintro ⟨hc1, hc2⟩
  obtain ⟨hb1, hb2⟩ := hb
  rcases h with h | h <;> omega

end Block

/-- The live blocks. -/
abbrev Blocks : Type := List Block

namespace Blocks

def starts (bs : Blocks) : List Nat := bs.map (·.start)

/-- No two of the blocks meet; none is empty or at the null pointer. -/
structure Apart (bs : Blocks) : Prop where
  pos : ∀ b ∈ bs, 0 < b.size
  nonnull : ∀ b ∈ bs, b.start ≠ 0
  pairwise : bs.Pairwise Block.Disjoint

/-- A block of `n` addresses can be put at `a`. -/
structure Fresh (bs : Blocks) (n a : Nat) : Prop where
  pos : 0 < n
  nonnull : a ≠ 0
  apart : ∀ b ∈ bs, (⟨a, n⟩ : Block).Disjoint b

instance (bs : Blocks) (n a : Nat) : Decidable (bs.Fresh n a) :=
  decidable_of_iff (0 < n ∧ a ≠ 0 ∧ ∀ b ∈ bs, (⟨a, n⟩ : Block).Disjoint b)
    ⟨fun h => ⟨h.1, h.2.1, h.2.2⟩,
      fun h => ⟨h.pos, h.nonnull, h.apart⟩⟩

/-- The allocator is asked for `n` addresses and gives `a`. -/
inductive Allocates (bs : Blocks) : Nat → Nat → Blocks → Prop
  | null : Allocates bs 0 0 bs
  | block {n a : Nat} (hfresh : bs.Fresh n a) : Allocates bs n a (⟨a, n⟩ :: bs)

/-- It is asked for several blocks, one after the other. -/
inductive AllocatesAll : Blocks → List Nat → List Nat → Blocks → Prop
  | nil (bs : Blocks) : AllocatesAll bs [] [] bs
  | cons {bs bs1 bs2 : Blocks} {n a : Nat} {ns as : List Nat} (h : Allocates bs n a bs1)
      (hrest : AllocatesAll bs1 ns as bs2) : AllocatesAll bs (n :: ns) (a :: as) bs2

/-- The block at `p` is given back. -/
def release (bs : Blocks) (p : Nat) : Outcome Blocks :=
  if p = 0 then pure bs
  else do
    Outcome.require (decide (p ∈ bs.starts))
    pure (bs.filter (·.start ≠ p))

def releaseAll (bs : Blocks) (ps : List Nat) : Outcome Blocks := ps.foldlM release bs

/-- The pointers that are not null. -/
abbrev nonnull (ps : List Nat) : List Nat := ps.filter (· ≠ 0)

variable {bs bs' : Blocks}

theorem mem_starts {p : Nat} : p ∈ bs.starts ↔ ∃ b ∈ bs, b.start = p := List.mem_map

theorem mem_starts_filter {q : Block → Bool} {p : Nat} :
    p ∈ starts (bs.filter q) ↔ ∃ b ∈ bs, b.start = p ∧ q b = true := by
  rw [mem_starts]
  constructor
  · rintro ⟨b, hb, rfl⟩
    obtain ⟨hb, hq⟩ := List.mem_filter.mp hb
    exact ⟨b, hb, rfl, hq⟩
  · rintro ⟨b, hb, rfl, hq⟩
    exact ⟨b, List.mem_filter.mpr ⟨hb, hq⟩, rfl⟩

/-! ## Taking blocks -/

theorem apart_nil : Apart [] := ⟨by simp, by simp, .nil⟩

theorem Apart.filter (h : bs.Apart) (q : Block → Bool) : Apart (bs.filter q) where
  pos := fun b hb => h.pos b (List.mem_filter.mp hb).1
  nonnull := fun b hb => h.nonnull b (List.mem_filter.mp hb).1
  pairwise := h.pairwise.sublist List.filter_sublist

/-- An address of a live block is in no other one. -/
theorem Apart.unique (h : bs.Apart) {b c : Block} (hb : b ∈ bs) (hc : c ∈ bs) {p : Nat}
    (hbp : b.Has p) (hcp : c.Has p) : b = c := by
  by_contra hne
  exact (h.pairwise.forall hb hc hne).not_has hbp hcp

theorem Allocates.apart {n a : Nat} (h : Allocates bs n a bs') (hbs : bs.Apart) : bs'.Apart := by
  cases h with
  | null => exact hbs
  | block hf =>
      exact ⟨List.forall_mem_cons.mpr ⟨hf.pos, hbs.pos⟩,
        List.forall_mem_cons.mpr ⟨hf.nonnull, hbs.nonnull⟩,
        List.pairwise_cons.mpr ⟨hf.apart, hbs.pairwise⟩⟩

theorem Allocates.starts {n a p : Nat} (h : Allocates bs n a bs') (hp : p ∈ bs.starts) :
    p ∈ bs'.starts := by
  cases h with
  | null => exact hp
  | block => exact List.mem_cons_of_mem _ hp

theorem Allocates.ne_null {n a : Nat} (h : Allocates bs n a bs') (hn : 0 < n) : a ≠ 0 := by
  cases h with
  | null => exact absurd hn (Nat.lt_irrefl 0)
  | block hf => exact hf.nonnull

theorem Allocates.mem {n a : Nat} (h : Allocates bs n a bs') (hn : 0 < n) : ⟨a, n⟩ ∈ bs' := by
  cases h with
  | null => exact absurd hn (Nat.lt_irrefl 0)
  | block => exact List.mem_cons_self

/-- The block is new. -/
theorem Allocates.fresh {n a : Nat} (h : Allocates bs n a bs') (hbs : bs.Apart) (ha : a ≠ 0) :
    a ∈ bs'.starts ∧ a ∉ bs.starts := by
  cases h with
  | null => exact absurd rfl ha
  | block hf =>
      refine ⟨List.mem_cons_self, fun hmem => ?_⟩
      obtain ⟨b, hb, rfl⟩ := mem_starts.mp hmem
      have hpos := hbs.pos b hb
      have hn := hf.pos
      have hapart := hf.apart b hb
      simp only [Block.Disjoint] at hapart
      omega

theorem AllocatesAll.starts {ns as : List Nat} (h : AllocatesAll bs ns as bs') {p : Nat}
    (hp : p ∈ bs.starts) : p ∈ bs'.starts := by
  induction h with
  | nil => exact hp
  | cons h _ ih => exact ih (h.starts hp)

theorem AllocatesAll.apart {ns as : List Nat} (h : AllocatesAll bs ns as bs') (hbs : bs.Apart) :
    bs'.Apart := by
  induction h with
  | nil => exact hbs
  | cons h _ ih => exact ih (h.apart hbs)

/-- Blocks taken one after the other are new, and different. -/
theorem allocatesAll_fresh {ns as : List Nat} (h : AllocatesAll bs ns as bs') (hbs : bs.Apart) :
    (nonnull as).Nodup ∧ ∀ a ∈ nonnull as, a ∈ bs'.starts ∧ a ∉ bs.starts := by
  induction h with
  | nil => exact ⟨.nil, fun a ha => absurd ha List.not_mem_nil⟩
  | @cons bs bs1 bs2 n a ns as h hrest ih =>
      obtain ⟨hnodup, hnew⟩ := ih (h.apart hbs)
      have hold : ∀ b ∈ nonnull as, b ∈ bs2.starts ∧ b ∉ bs.starts := fun b hb =>
        ⟨(hnew b hb).1, fun hmem => (hnew b hb).2 (h.starts hmem)⟩
      by_cases ha : a = 0
      · rw [nonnull, List.filter_cons_of_neg (by simpa using ha)]
        exact ⟨hnodup, hold⟩
      · obtain ⟨hlive, hfresh⟩ := h.fresh hbs ha
        rw [nonnull, List.filter_cons_of_pos (by simpa using ha)]
        refine ⟨List.nodup_cons.mpr ⟨fun hmem => (hnew a hmem).2 hlive, hnodup⟩,
          List.forall_mem_cons.mpr ⟨⟨hrest.starts hlive, hfresh⟩, hold⟩⟩

/-! ## Giving them back -/

theorem release_ok (hbs : bs.Apart) {p : Nat} (hp : p ≠ 0 → p ∈ bs.starts) :
    bs.release p = .ok (bs.filter (·.start ≠ p)) := by
  rw [release]
  split_ifs with h0
  · rw [List.filter_eq_self.mpr fun b hb => decide_eq_true (h0 ▸ hbs.nonnull b hb)]
    rfl
  · rw [decide_eq_true (hp h0)]
    rfl

/-- Different live blocks can be given back in any order. -/
theorem releaseAll_ok : ∀ {ps : List Nat} {bs : Blocks}, bs.Apart → (nonnull ps).Nodup →
    (∀ p ∈ nonnull ps, p ∈ bs.starts) →
    bs.releaseAll ps = .ok (bs.filter (·.start ∉ ps))
  | [], bs, _, _, _ => by
      rw [List.filter_eq_self.mpr fun b _ => decide_eq_true List.not_mem_nil]
      rfl
  | p :: ps, bs, hbs, hnodup, hlive => by
      have hp : p ≠ 0 → p ∈ bs.starts := fun h0 =>
        hlive p (List.mem_filter.mpr ⟨List.mem_cons_self, decide_eq_true h0⟩)
      have hsub : ∀ q ∈ nonnull ps, q ∈ nonnull (p :: ps) := fun q hq => by
        obtain ⟨hq, h0⟩ := List.mem_filter.mp hq
        exact List.mem_filter.mpr ⟨List.mem_cons_of_mem _ hq, h0⟩
      have hne : ∀ q ∈ nonnull ps, q ≠ p := by
        rintro q hq rfl
        obtain ⟨hmem, h0⟩ := List.mem_filter.mp hq
        rw [nonnull, List.filter_cons_of_pos (by exact h0)] at hnodup
        exact (List.nodup_cons.mp hnodup).1 hq
      have hrest : ∀ q ∈ nonnull ps, q ∈ starts (bs.filter (·.start ≠ p)) := fun q hq => by
        obtain ⟨b, hb, rfl⟩ := mem_starts.mp (hlive q (hsub q hq))
        exact mem_starts_filter.mpr ⟨b, hb, rfl, decide_eq_true (hne _ hq)⟩
      have hnodup' : (nonnull ps).Nodup :=
        hnodup.sublist ((List.sublist_cons_self p ps).filter _)
      have ih := releaseAll_ok (hbs.filter (·.start ≠ p)) hnodup' hrest
      rw [releaseAll, List.foldlM_cons, release_ok hbs hp, Outcome.ok_bind]
      refine ih.trans (congrArg Outcome.ok ?_)
      rw [List.filter_filter]
      refine List.filter_congr fun b _ => ?_
      simp [Bool.and_comm]

end Blocks

end Basis
