import Saurus.Basis.Blocks
import Saurus.Format.Tree
import Saurus.Gc.Heap

/-!
# Who owns the memory of an object

Objects are made in a block of their own and given back one by one by the loop
of `end`: `free_object` releases what the object points to and owns, and then
the object. `cell_create_array` puts all cells of a list into one block; the
second cell on is in the middle of a block, and releasing the first one takes
the others with it.

A call of a constructor is a `AllocSite`; `AllocSite.request` has what it asks
`su_allocate` for. What the C code holds for itself (buffers, a constructor
that was left by an error) is `scratch`.
-/

namespace Saurus

open Basis Basis.Blocks

/-! ## Sizes -/

/-- The types that are allocated. -/
inductive CType where
  | int | unsigned | string | const | instruction | upvalue | value | local | cellSeq | itSeq
  | vectorNode | vector | node | nodeLeaf | nodeCollision | nodeIdx | nodeFull | map | function
  | prototype
deriving Repr, DecidableEq

/-- `sizeof` on some machine. `vector_node_t` has room for one value. -/
structure Layout where
  sizeOf : CType → Nat
  pos : ∀ t, 0 < sizeOf t
  data : sizeOf .value < sizeOf .vectorNode

/-! ## Constructors -/

/-- A call of a function that ends in `gc_insert_object`, with what the sizes
it asks for depend on. -/
inductive AllocSite where
  | stringFromDb (size : Nat)
  | refLocal
  | cellCreate
  | cellCreateArray (num : Nat)
  | itNext
  | itCreateVector
  | itCreateString
  | itSeqCreateWithIndex
  | nodeCreateOnly (len : Nat)
  | vectorCreate
  | createFullNode
  | createIdxNode
  | createCollisionNode
  | createLeafNode
  | createEmptyNode
  | mapCreate
  | lambda (numConst numUps : Nat)
  | suLoad (prot : Proto)

/-- What a constructor asks for: a block for `count` objects, `stride` apart,
and further blocks that `free_object` releases with the object. -/
structure Request where
  size : Nat
  stride : Nat
  count : Nat
  parts : List Nat

namespace Layout

variable (L : Layout)

/-- `read_string` -/
def stringSizes : List ProtoConst → List Nat
  | [] => []
  | .string str :: cs => (L.sizeOf .unsigned + str.length) :: stringSizes cs
  | _ :: cs => stringSizes cs

mutual

/-- The blocks of a prototype, in the order of `free_prot`. -/
def protSizes : Proto → List Nat
  | .mk inst constants upvalues prot _ lineinf =>
      [L.sizeOf .instruction * inst.length, L.sizeOf .int * lineinf.length,
        L.sizeOf .upvalue * upvalues.length]
      ++ L.stringSizes constants ++ [L.sizeOf .const * constants.length]
      ++ protsSizes prot ++ [L.sizeOf .prototype * prot.length]

/-- Its loop over `prot->prot`. -/
def protsSizes : List Proto → List Nat
  | [] => []
  | p :: ps => protSizes p ++ protsSizes ps

end

end Layout

/-- One object in a block of `size`. -/
def Request.single (size : Nat) (parts : List Nat) : Request := ⟨size, 0, 1, parts⟩

/-- What the call asks for. -/
def AllocSite.request (L : Layout) : AllocSite → Request
  | .stringFromDb size => .single (L.sizeOf .string + size) []
  | .refLocal => .single (L.sizeOf .local) []
  | .cellCreate => .single (L.sizeOf .cellSeq) []
  | .cellCreateArray num => ⟨L.sizeOf .cellSeq * num, L.sizeOf .cellSeq, num, []⟩
  | .itNext | .itCreateVector | .itCreateString | .itSeqCreateWithIndex =>
      .single (L.sizeOf .itSeq) []
  | .nodeCreateOnly len =>
      .single (L.sizeOf .vectorNode + L.sizeOf .value * len - L.sizeOf .value) []
  | .vectorCreate => .single (L.sizeOf .vector) []
  | .createFullNode => .single (L.sizeOf .nodeFull) []
  | .createIdxNode => .single (L.sizeOf .nodeIdx) []
  | .createCollisionNode => .single (L.sizeOf .nodeCollision) []
  | .createLeafNode => .single (L.sizeOf .nodeLeaf) []
  | .createEmptyNode => .single (L.sizeOf .node) []
  | .mapCreate => .single (L.sizeOf .map) []
  | .lambda numConst numUps =>
      .single (L.sizeOf .function) [L.sizeOf .value * numConst, L.sizeOf .value * numUps]
  | .suLoad prot => .single (L.sizeOf .prototype) (L.protSizes prot)

/-- The call does not make several objects at once. -/
def AllocSite.OneEach : AllocSite → Prop
  | .cellCreateArray num => num ≤ 1
  | _ => True

/-- One object at a time is in a block of its own size, not empty. -/
theorem AllocSite.request_count (L : Layout) (site : AllocSite) :
    ((site.request L).count ≤ 1 ↔ site.OneEach)
      ∧ ((site.request L).count = 1 → 0 < (site.request L).size) := by
  have hpos := L.pos
  have hone : ∀ {size : Nat} {parts : List Nat}, 0 < size →
      ((Request.single size parts).count ≤ 1 ↔ True)
        ∧ ((Request.single size parts).count = 1 → 0 < (Request.single size parts).size) :=
    fun hsize =>
    ⟨iff_of_true (Nat.le_refl 1) trivial, fun _ => hsize⟩
  cases site with
  | cellCreateArray num =>
      refine ⟨Iff.rfl, fun h => ?_⟩
      have hnum : num = 1 := h
      rw [hnum]
      exact Nat.mul_pos (hpos _) Nat.one_pos
  | nodeCreateOnly len =>
      have hdata := L.data
      exact hone (by omega)
  | stringFromDb size => exact hone (Nat.add_pos_left (hpos _) _)
  | _ => exact hone (hpos _)

/-! ## The store -/

/-- An object on the `gc_root` list, and the blocks that `free_object` releases
with it. -/
structure HeapObject where
  addr : Nat
  parts : List Nat

/-- What `free_object` releases, in its order. -/
def HeapObject.blocks (o : HeapObject) : List Nat := o.parts ++ [o.addr]

/-- The live blocks, the `gc_root` list, and the blocks that C code holds. -/
structure Store where
  blocks : Blocks
  objects : List HeapObject
  scratch : List Nat

/-- The objects of a request whose block is at `a`: the last one registered is
the head of the list. -/
def Request.objects (r : Request) (a : Nat) (parts : List Nat) : List HeapObject :=
  ((List.range r.count).map fun i => ⟨a + i * r.stride, parts⟩).reverse

namespace Store

/-- A constructor is called and registers its objects. -/
inductive Creates (r : Request) (m : Store) : Store → Prop
  | mk {a : Nat} {parts : List Nat} {blocks : Blocks}
      (h : AllocatesAll m.blocks (r.size :: r.parts) (a :: parts) blocks) :
      Creates r m { m with blocks := blocks, objects := r.objects a parts ++ m.objects }

/-- `free_object` -/
def freeObject (blocks : Blocks) (o : HeapObject) : Outcome Blocks := blocks.releaseAll o.blocks

/-- The loop of `end`. -/
def sweepLoop (white : HeapObject → Bool) :
    Blocks → List HeapObject → Outcome (Blocks × List HeapObject)
  | blocks, [] => pure (blocks, [])
  | blocks, o :: os =>
      if white o then do sweepLoop white (← freeObject blocks o) os
      else do
        let (blocks, kept) ← sweepLoop white blocks os
        pure (blocks, o :: kept)

/-- `end`, with the objects that marking has left white. -/
def sweepObjects (white : HeapObject → Bool) (m : Store) : Outcome Store := do
  let (blocks, kept) ← sweepLoop white m.blocks m.objects
  pure { m with blocks := blocks, objects := kept }

/-- One step: a constructor, a block that C code takes for itself or gives
back, or a collection. -/
inductive Step (L : Layout) (P : AllocSite → Prop) (m : Store) : Store → Prop
  | create {m' : Store} (site : AllocSite) (hsite : P site) (h : Creates (site.request L) m m') :
      Step L P m m'
  | take {n a : Nat} {blocks : Blocks} (h : Allocates m.blocks n a blocks) :
      Step L P m { m with blocks := blocks, scratch := a :: m.scratch }
  | give {p : Nat} {blocks : Blocks} (hp : p ∈ m.scratch) (h : m.blocks.release p = .ok blocks) :
      Step L P m { m with blocks := blocks, scratch := m.scratch.erase p }
  | collect {m' : Store} (white : HeapObject → Bool) (h : m.sweepObjects white = .ok m') :
      Step L P m m'

/-- States reached with constructors called at sites that meet `P` only. -/
inductive Run (L : Layout) (P : AllocSite → Prop) : Store → Prop
  | init : Run L P ⟨[], [], []⟩
  | step {m m' : Store} (h : Run L P m) (hstep : Step L P m m') : Run L P m'

/-- Every object is the start of a live block that no other object is in. -/
def OwnBlocks (m : Store) : Prop :=
  (m.objects.map (·.addr)).Nodup ∧ ∀ o ∈ m.objects, ∃ b ∈ m.blocks, b.start = o.addr
    ∧ ∀ o' ∈ m.objects, b.Has o'.addr → o'.addr = o.addr

/-- Whatever is white, `end` gives live blocks back only, and each of them
once. -/
def SweepsClean (m : Store) : Prop := ∀ white, ∃ m', m.sweepObjects white = .ok m'

/-! ## The invariant -/

/-- All pointers the objects and the C code will give back. -/
def held (m : Store) : List Nat := nonnull (m.scratch ++ m.objects.flatMap HeapObject.blocks)

/-- Every one of them is a live block, and none is held twice. -/
structure Owning (m : Store) : Prop where
  apart : m.blocks.Apart
  live : ∀ p ∈ m.held, p ∈ m.blocks.starts
  nodup : m.held.Nodup
  addr : ∀ o ∈ m.objects, o.addr ≠ 0

section Steps

variable {m m' : Store}

theorem mem_held {p : Nat} :
    p ∈ m.held ↔ (p ∈ m.scratch ∨ ∃ o ∈ m.objects, p ∈ o.blocks) ∧ p ≠ 0 := by
  rw [held, List.mem_filter, List.mem_append, List.mem_flatMap, decide_eq_true_iff]

theorem held_cons (m : Store) (o : HeapObject) :
    (held { m with objects := o :: m.objects }).Perm (nonnull o.blocks ++ m.held) := by
  have hperm : (m.scratch ++ (o.blocks ++ m.objects.flatMap HeapObject.blocks)).Perm
      (o.blocks ++ (m.scratch ++ m.objects.flatMap HeapObject.blocks)) :=
    List.perm_append_comm_assoc ..
  rw [held, List.flatMap_cons, held, nonnull, nonnull, nonnull, ← List.filter_append]
  exact hperm.filter _

/-- The blocks `as` have been taken and nothing else has changed hands. -/
theorem Owning.grow (h : m.Owning) {ns as : List Nat}
    (halloc : AllocatesAll m.blocks ns as m'.blocks)
    (hheld : m'.held.Perm (nonnull as ++ m.held)) (haddr : ∀ o ∈ m'.objects, o.addr ≠ 0) :
    m'.Owning := by
  obtain ⟨hnodup, hnew⟩ := allocatesAll_fresh halloc h.apart
  refine ⟨halloc.apart h.apart, fun p hp => ?_, ?_, haddr⟩
  · rcases List.mem_append.mp (hheld.mem_iff.mp hp) with hp | hp
    · exact (hnew p hp).1
    · exact halloc.starts (h.live p hp)
  · rw [hheld.nodup_iff, List.nodup_append]
    refine ⟨hnodup, h.nodup, fun p hp q hq heq => ?_⟩
    exact (hnew p hp).2 (heq ▸ h.live q hq)

theorem Owning.create (h : m.Owning) {L : Layout} {site : AllocSite} (hsite : site.OneEach)
    (hc : Creates (site.request L) m m') : m'.Owning := by
  obtain ⟨hcount, hsize⟩ := site.request_count L
  generalize site.request L = r at hc hcount hsize
  obtain ⟨halloc⟩ := hc
  rename_i a parts blocks
  have hle := hcount.mpr hsite
  obtain hzero | hone : r.count = 0 ∨ r.count = 1 := by omega
  · -- no object, and a block that nobody holds
    have hnone : r.objects a parts = [] := by rw [Request.objects, hzero]; rfl
    rw [hnone, List.nil_append]
    exact ⟨halloc.apart h.apart, fun p hp => halloc.starts (h.live p hp), h.nodup, h.addr⟩
  · have hobject : r.objects a parts = [⟨a, parts⟩] := by
      rw [Request.objects, hone]
      simp
    have ha : a ≠ 0 := by
      cases halloc with
      | cons hfirst _ => exact hfirst.ne_null (hsize hone)
    have hblocks : (nonnull (parts ++ [a])).Perm (nonnull (a :: parts)) :=
      List.Perm.filter _ List.perm_append_comm
    rw [hobject]
    exact h.grow halloc ((held_cons m ⟨a, parts⟩).trans (hblocks.append_right _))
      (List.forall_mem_cons.mpr ⟨ha, h.addr⟩)

theorem Owning.take (h : m.Owning) {n a : Nat} {blocks : Blocks}
    (halloc : Allocates m.blocks n a blocks) :
    Owning { m with blocks := blocks, scratch := a :: m.scratch } := by
  refine h.grow (.cons halloc (.nil _)) ?_ h.addr
  rw [held, held, nonnull, nonnull, nonnull, ← List.filter_append]
  exact .refl _

/-- What is given back was held, and the rest still is. -/
theorem Owning.shrink (h : m.Owning) (ps : List Nat)
    (hheld : m.held.Perm (nonnull ps ++ m'.held)) (haddr : ∀ o ∈ m'.objects, o.addr ≠ 0)
    (hblocks : m'.blocks = m.blocks.filter (·.start ∉ ps)) : m'.Owning := by
  have hnodup := hheld.nodup_iff.mp h.nodup
  rw [List.nodup_append] at hnodup
  obtain ⟨-, hrest, hdisj⟩ := hnodup
  refine ⟨hblocks ▸ h.apart.filter _, fun p hp => ?_, hrest, haddr⟩
  have hlive := h.live p (hheld.mem_iff.mpr (List.mem_append_right _ hp))
  obtain ⟨b, hb, rfl⟩ := mem_starts.mp hlive
  rw [hblocks]
  refine mem_starts_filter.mpr ⟨b, hb, rfl, decide_eq_true fun hmem => ?_⟩
  exact hdisj _ (List.mem_filter.mpr ⟨hmem, decide_eq_true (mem_held.mp hp).2⟩) _ hp rfl

theorem Owning.give (h : m.Owning) {p : Nat} {blocks : Blocks} (hp : p ∈ m.scratch)
    (hrelease : m.blocks.release p = .ok blocks) :
    Owning { m with blocks := blocks, scratch := m.scratch.erase p } := by
  have hlive : p ≠ 0 → p ∈ m.blocks.starts := fun h0 => h.live p (mem_held.mpr ⟨Or.inl hp, h0⟩)
  refine h.shrink [p] ?_ h.addr ?_
  · rw [held, held, nonnull, nonnull, nonnull, ← List.filter_append]
    refine List.Perm.filter _ ?_
    exact (List.perm_cons_erase hp).append_right _
  · rw [release_ok h.apart hlive] at hrelease
    obtain rfl := Outcome.ok.inj hrelease
    refine List.filter_congr fun b _ => ?_
    simp

/-! ## The sweep -/

/-- The loop of `end` gives back the blocks of the white objects. -/
theorem sweepLoop_ok (white : HeapObject → Bool) : ∀ {os : List HeapObject} {blocks : Blocks},
    blocks.Apart → (nonnull (os.flatMap HeapObject.blocks)).Nodup →
    (∀ p ∈ nonnull (os.flatMap HeapObject.blocks), p ∈ blocks.starts) →
    sweepLoop white blocks os
      = .ok (blocks.filter (·.start ∉ (os.filter white).flatMap HeapObject.blocks),
        os.filter fun o => !white o)
  | [], blocks, _, _, _ => by
      rw [sweepLoop, List.filter_eq_self.mpr fun b _ => by simp]
      rfl
  | o :: os, blocks, hapart, hnodup, hlive => by
      rw [List.flatMap_cons, nonnull, List.filter_append] at hnodup hlive
      obtain ⟨hhead, htail, hdisj⟩ := List.nodup_append.mp hnodup
      cases hw : white o with
      | true =>
          have hfree : freeObject blocks o = .ok (blocks.filter (·.start ∉ o.blocks)) :=
            releaseAll_ok hapart hhead fun p hp => hlive p (List.mem_append_left _ hp)
          have hrest : ∀ p ∈ nonnull (os.flatMap HeapObject.blocks),
              p ∈ starts (blocks.filter (·.start ∉ o.blocks)) := by
            intro p hp
            obtain ⟨b, hb, rfl⟩ := mem_starts.mp (hlive p (List.mem_append_right _ hp))
            refine mem_starts_filter.mpr ⟨b, hb, rfl, decide_eq_true fun hmem => ?_⟩
            exact hdisj _ (List.mem_filter.mpr ⟨hmem, (List.mem_filter.mp hp).2⟩) _ hp rfl
          rw [sweepLoop, if_pos hw, hfree, Outcome.ok_bind,
            sweepLoop_ok white (hapart.filter _) htail hrest, List.filter_cons_of_pos hw,
            List.filter_cons_of_neg (by simp [hw]), List.flatMap_cons, List.filter_filter]
          refine congrArg (fun bs => Outcome.ok (bs, _)) (List.filter_congr fun b _ => ?_)
          simp [Bool.and_comm]
      | false =>
          rw [sweepLoop, if_neg (by simp [hw]), sweepLoop_ok white hapart htail fun p hp =>
            hlive p (List.mem_append_right _ hp), List.filter_cons_of_neg (by simp [hw]),
            List.filter_cons_of_pos (by simp [hw])]
          rfl

/-- Every sweep completes, and leaves the invariant. -/
theorem Owning.sweep (h : m.Owning) (white : HeapObject → Bool) :
    ∃ m', m.sweepObjects white = .ok m' ∧ m'.Owning := by
  have hsplit := (List.filter_append_perm white m.objects).symm.flatMap_right HeapObject.blocks
  rw [List.flatMap_append] at hsplit
  have htail : (nonnull (m.objects.flatMap HeapObject.blocks)).Sublist m.held :=
    (List.sublist_append_right _ _).filter _
  have hloop := sweepLoop_ok white h.apart (h.nodup.sublist htail)
    fun p hp => h.live p (htail.subset hp)
  refine ⟨_, by rw [sweepObjects, hloop]; rfl, h.shrink
    ((m.objects.filter white).flatMap HeapObject.blocks) ?_ (fun o ho => ?_) rfl⟩
  · rw [held, held, nonnull, nonnull, nonnull, ← List.filter_append]
    refine List.Perm.filter _ ((hsplit.append_left _).trans ?_)
    exact List.perm_append_comm_assoc ..
  · exact h.addr o (List.mem_filter.mp ho).1

theorem Owning.step (h : m.Owning) {L : Layout} (hstep : Step L AllocSite.OneEach m m') :
    m'.Owning := by
  cases hstep with
  | create site hsite hc => exact h.create hsite hc
  | take halloc => exact h.take halloc
  | give hp hrelease => exact h.give hp hrelease
  | collect white hsweep =>
      obtain ⟨m1, h1, hown⟩ := h.sweep white
      exact Outcome.ok.inj (h1.symm.trans hsweep) ▸ hown

/-! ## Objects and blocks -/

theorem addr_sublist : ∀ os : List HeapObject,
    (os.map (·.addr)).Sublist (os.flatMap HeapObject.blocks)
  | [] => .slnil
  | o :: os => (List.sublist_append_right o.parts [o.addr]).append (addr_sublist os)

theorem Owning.ownBlocks (h : m.Owning) : m.OwnBlocks := by
  have hself : nonnull (m.objects.map (·.addr)) = m.objects.map (·.addr) := by
    refine List.filter_eq_self.mpr fun a ha => decide_eq_true ?_
    obtain ⟨o, ho, rfl⟩ := List.mem_map.mp ha
    exact h.addr o ho
  have hsub : (m.objects.map (·.addr)).Sublist m.held :=
    hself ▸ ((addr_sublist m.objects).trans (List.sublist_append_right _ _)).filter _
  have hblock : ∀ o ∈ m.objects, ∃ b ∈ m.blocks, b.start = o.addr ∧ b.Has o.addr := fun o ho => by
    obtain ⟨b, hb, heq⟩ := mem_starts.mp (h.live _ (hsub.subset (List.mem_map_of_mem ho)))
    have hpos := h.apart.pos b hb
    exact ⟨b, hb, heq, by rw [← heq]; exact ⟨Nat.le_refl _, Nat.lt_add_of_pos_right hpos⟩⟩
  refine ⟨h.nodup.sublist hsub, fun o ho => ?_⟩
  obtain ⟨b, hb, heq, -⟩ := hblock o ho
  refine ⟨b, hb, heq, fun o' ho' hhas => ?_⟩
  obtain ⟨b', hb', heq', hhas'⟩ := hblock o' ho'
  rw [← heq', ← heq, h.apart.unique hb' hb hhas' hhas]

theorem Owning.sweepsClean (h : m.Owning) : m.SweepsClean := fun white =>
  (h.sweep white).imp fun _ hm => hm.1

/-- The second of several objects in one block is the start of none. -/
theorem Owning.ownBlocks_create_iff (h : m.Owning) {L : Layout} {site : AllocSite}
    (hc : Creates (site.request L) m m') : m'.OwnBlocks ↔ site.OneEach := by
  refine ⟨fun hown => ?_, fun hsite => (h.create hsite hc).ownBlocks⟩
  cases site with
  | cellCreateArray num =>
      by_contra hmany
      have hnum : 2 ≤ num := Nat.not_le.mp hmany
      obtain ⟨halloc⟩ := hc
      rename_i a parts blocks
      have hapart : blocks.Apart := halloc.apart h.apart
      have hpos := L.pos .cellSeq
      have hsecond : (⟨a + 1 * L.sizeOf .cellSeq, parts⟩ : HeapObject)
          ∈ (AllocSite.request L (.cellCreateArray num)).objects a parts := by
        refine List.mem_reverse.mpr (List.mem_map.mpr ⟨1, List.mem_range.mpr hnum, rfl⟩)
      have hsize : L.sizeOf .cellSeq * 2 ≤ L.sizeOf .cellSeq * num := Nat.mul_le_mul_left _ hnum
      obtain ⟨b, hb, hstart, -⟩ := hown.2 _ (List.mem_append_left _ hsecond)
      change b.start = a + 1 * L.sizeOf .cellSeq at hstart
      have hhas : b.Has (a + 1 * L.sizeOf .cellSeq) := by
        have := hapart.pos b hb
        rw [← hstart]
        exact ⟨Nat.le_refl _, Nat.lt_add_of_pos_right this⟩
      have hmem : (⟨a, L.sizeOf .cellSeq * num⟩ : Block) ∈ blocks := by
        cases halloc with
        | cons hfirst hrest =>
            cases hrest with
            | nil => exact hfirst.mem (Nat.mul_pos hpos (by omega))
      have heq := hapart.unique hb hmem hhas ⟨by dsimp only; omega, by dsimp only; omega⟩
      rw [heq] at hstart
      change a = a + 1 * L.sizeOf .cellSeq at hstart
      omega
  | _ => exact trivial

end Steps

theorem owning_init : Owning ⟨[], [], []⟩ :=
  ⟨apart_nil, fun _ h => absurd h List.not_mem_nil, .nil, fun _ h => absurd h List.not_mem_nil⟩

theorem Run.owning {L : Layout} {m : Store} (h : Run L AllocSite.OneEach m) : m.Owning := by
  induction h with
  | init => exact owning_init
  | step _ hstep ih => exact ih.step hstep

/-- **Ownership.** In a run in which no call makes several objects at once every
object has a block of its own and every sweep gives back live blocks only, each
once; and the first call that does make several leaves an object without. -/
theorem own_blocks_iff {L : Layout} {m : Store} (h : Run L AllocSite.OneEach m) :
    m.OwnBlocks ∧ m.SweepsClean
      ∧ ∀ (site : AllocSite) m', Creates (site.request L) m m' → (m'.OwnBlocks ↔ site.OneEach) :=
  ⟨h.owning.ownBlocks, h.owning.sweepsClean, fun _ _ hc => h.owning.ownBlocks_create_iff hc⟩

/-- The sizes on a machine with eight-byte pointers. -/
def lp64 : Layout where
  sizeOf
    | .int | .unsigned | .instruction | .upvalue => 4
    | .const => 16
    | .value | .node => 24
    | .string | .map => 32
    | .local | .itSeq | .vector | .nodeCollision | .nodeFull => 40
    | .nodeIdx | .vectorNode => 48
    | .function => 64
    | .cellSeq => 72
    | .nodeLeaf => 80
    | .prototype => 104
  pos := fun t => by cases t <;> decide
  data := by decide

/-- A string, a closure over two constants, a buffer and a map; a collection
that leaves the closure white; then an empty node in the space of the closure,
and the buffer given back. -/
theorem own_blocks_swept :
    OwnBlocks ⟨[⟨64, 24⟩, ⟨192, 32⟩, ⟨16, 39⟩], [⟨64, []⟩, ⟨192, []⟩, ⟨16, []⟩], []⟩
      ∧ SweepsClean ⟨[⟨64, 24⟩, ⟨192, 32⟩, ⟨16, 39⟩], [⟨64, []⟩, ⟨192, []⟩, ⟨16, []⟩], []⟩ := by
  have hstring : Run lp64 AllocSite.OneEach ⟨[⟨16, 39⟩], [⟨16, []⟩], []⟩ :=
    .step .init (.create (.stringFromDb 7) trivial (.mk (a := 16)
      (.cons (.block (by decide)) (.nil _))))
  have hlambda : Run lp64 AllocSite.OneEach
      ⟨[⟨128, 48⟩, ⟨64, 64⟩, ⟨16, 39⟩], [⟨64, [128, 0]⟩, ⟨16, []⟩], []⟩ :=
    .step hstring (.create (.lambda 2 0) trivial (.mk (a := 64)
      (.cons (.block (by decide))
        (.cons (.block (by decide)) (.cons .null (.nil _))))))
  have hbuffer : Run lp64 AllocSite.OneEach
      ⟨[⟨256, 64⟩, ⟨128, 48⟩, ⟨64, 64⟩, ⟨16, 39⟩], [⟨64, [128, 0]⟩, ⟨16, []⟩], [256]⟩ :=
    .step hlambda (.take (.block (by decide)))
  have hmap : Run lp64 AllocSite.OneEach
      ⟨[⟨192, 32⟩, ⟨256, 64⟩, ⟨128, 48⟩, ⟨64, 64⟩, ⟨16, 39⟩],
        [⟨192, []⟩, ⟨64, [128, 0]⟩, ⟨16, []⟩], [256]⟩ :=
    .step hbuffer (.create .mapCreate trivial (.mk (a := 192)
      (.cons (.block (by decide)) (.nil _))))
  have hswept : Run lp64 AllocSite.OneEach
      ⟨[⟨192, 32⟩, ⟨256, 64⟩, ⟨16, 39⟩], [⟨192, []⟩, ⟨16, []⟩], [256]⟩ :=
    .step hmap (.collect (fun o => o.addr == 64) rfl)
  have hnode : Run lp64 AllocSite.OneEach
      ⟨[⟨64, 24⟩, ⟨192, 32⟩, ⟨256, 64⟩, ⟨16, 39⟩],
        [⟨64, []⟩, ⟨192, []⟩, ⟨16, []⟩], [256]⟩ :=
    .step hswept (.create .createEmptyNode trivial (.mk (a := 64)
      (.cons (.block (by decide)) (.nil _))))
  have hgiven : Run lp64 AllocSite.OneEach
      ⟨[⟨64, 24⟩, ⟨192, 32⟩, ⟨16, 39⟩], [⟨64, []⟩, ⟨192, []⟩, ⟨16, []⟩], []⟩ :=
    .step hnode (.give (p := 256) List.mem_cons_self rfl)
  exact ⟨(own_blocks_iff hgiven).1, (own_blocks_iff hgiven).2.1⟩

/-- A list of two: its second cell is in the block of the first, and giving it
back has no meaning. -/
theorem list_shares_block :
    ¬ ∀ m, Run lp64 (fun _ => True) m → m.OwnBlocks ∧ m.SweepsClean := by
  intro h
  have hrun : Run lp64 (fun _ => True) ⟨[⟨16, 144⟩], [⟨88, []⟩, ⟨16, []⟩], []⟩ :=
    .step .init (.create (.cellCreateArray 2) trivial (.mk (a := 16)
      (.cons (.block ⟨by decide, by decide, fun _ h => absurd h List.not_mem_nil⟩) (.nil _))))
  obtain ⟨m', hm'⟩ := (h _ hrun).2 fun _ => true
  cases hm'

end Store

end Saurus
