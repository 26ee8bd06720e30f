import Saurus.Vec.Node

/-!
# Vectors refine lists

A vector represents the list of its elements: those outside the tail are
the leaves of a packed tree of 32-way nodes, and their number is a multiple
of 32, so five bits of the index are a digit of the position at every
level, the tail included. `Represents` adds what makes the two restructuring
steps come out right: only an empty vector has an empty tail, and a root
above the first level has at least two children.

Each operation has one lemma; `represents_run` puts them together over a
sequence of operations.
-/

namespace Saurus

open Basis Basis.Radix

/-! ## Digits of an index -/

theorem subIdx_eq (i level : Nat) : subIdx i level = i / 32 ^ level % 32 := by
  have hmask : (0x1f : Nat) = 2 ^ 5 - 1 := rfl
  rw [subIdx, hmask, Nat.and_two_pow_sub_one_eq_mod, Nat.shiftRight_eq_div_pow, Nat.pow_mul]

theorem mod_pow_div (i level : Nat) : i % 32 ^ (level + 1) / 32 ^ level = i / 32 ^ level % 32 := by
  rw [Nat.pow_succ, Nat.mod_mul_right_div_self]

theorem mod_pow_mod (i level : Nat) : i % 32 ^ (level + 1) % 32 ^ level = i % 32 ^ level :=
  Nat.mod_mod_of_dvd _ (Nat.pow_dvd_pow _ (Nat.le_succ _))

/-! ## Descent -/

/-- The loop of `vector_index` ends in the chunk that holds the position. -/
theorem descend_ok : ∀ {level : Nat} {arr : VectorNode}, Packed 32 level (.node arr) →
    ∀ {i : Nat}, i % 32 ^ (level + 1) < (arr.flatMap Tree.toList).length →
    ∃ xs : List Value, descend level arr i = .ok (xs.map .leaf) ∧ xs.length = 32
      ∧ xs[i % 32]? = (arr.flatMap Tree.toList)[i % 32 ^ (level + 1)]?
  | 0, arr, h, i, _ => by
      obtain ⟨xs, rfl, hlen⟩ := Full.chunk h
      refine ⟨xs, rfl, hlen, ?_⟩
      rw [← Tree.toList_node, Tree.toList_chunk, Nat.zero_add, Nat.pow_one]
  | level + 1, arr, h, i, hi => by
      obtain ⟨c, hc, hpacked, hrest, huniform⟩ := packed_child h hi
      rw [mod_pow_mod] at hrest
      have hget := getElem?_flatMap hrest hc huniform
      rw [mod_pow_div] at hc hget
      obtain ⟨cs, rfl⟩ := hpacked.exists_node
      rw [Tree.toList_node] at hrest hget
      obtain ⟨xs, hrun, hlen, hxs⟩ := descend_ok hpacked hrest
      refine ⟨xs, ?_, hlen, ?_⟩
      · rw [descend, dataAt, subIdx_eq, hc]
        exact hrun
      · rw [hxs, ← hget, ← mod_pow_div, ← mod_pow_mod i (level + 1), Nat.mul_comm,
          Nat.div_add_mod]

/-- `insert` changes the element at the position and keeps the shape. -/
theorem vectorInsert_ok (val : Value) : ∀ {level : Nat} {arr : VectorNode},
    Packed 32 level (.node arr) →
    ∀ {i : Nat}, i % 32 ^ (level + 1) < (arr.flatMap Tree.toList).length →
    ∃ arr' : VectorNode, vectorInsert level arr i val = .ok arr'
      ∧ Packed 32 level (.node arr') ∧ arr'.length = arr.length
      ∧ (Full 32 (level + 1) (.node arr) → Full 32 (level + 1) (.node arr'))
      ∧ arr'.flatMap Tree.toList
          = (arr.flatMap Tree.toList).set (i % 32 ^ (level + 1)) val
  | 0, arr, h, i, _ => by
      obtain ⟨xs, rfl, hlen⟩ := Full.chunk h
      have hlt : i % 32 < xs.length := by omega
      have hset : (xs.map Tree.leaf).set (i % 32) (.leaf val) = (xs.set (i % 32) val).map .leaf :=
        List.map_set.symm
      have hshape : Full 32 1 (.node ((xs.set (i % 32) val).map .leaf)) :=
        full_chunk (by rw [List.length_set, hlen])
      refine ⟨(xs.set (i % 32) val).map .leaf, ?_, hshape, ?_, fun _ => hshape, ?_⟩
      · rw [vectorInsert, dataSet, subIdx_eq, Nat.pow_zero, Nat.div_one, hset]
        simp [hlen, Nat.mod_lt]
      · simp
      · rw [← Tree.toList_node, ← Tree.toList_node, Tree.toList_chunk, Tree.toList_chunk,
          Nat.zero_add, Nat.pow_one]
  | level + 1, arr, h, i, hi => by
      obtain ⟨c, hc, hpacked, hrest, huniform⟩ := packed_child h hi
      rw [mod_pow_mod] at hrest
      obtain ⟨cs, rfl⟩ := hpacked.exists_node
      obtain ⟨cs', hrun, hpacked', hlen', hfull', hset'⟩ :=
        vectorInsert_ok val hpacked (by rwa [Tree.toList_node] at hrest)
      have hchild : (Radix.Tree.node cs').toList
          = (Radix.Tree.node cs).toList.set (i % 32 ^ (level + 1)) val := by
        rw [Tree.toList_node, Tree.toList_node, hset']
      have hcontents := set_flatMap hrest hchild hc huniform
      have hpos : i % 32 ^ (level + 2) / 32 ^ (level + 1) * 32 ^ (level + 1) + i % 32 ^ (level + 1)
          = i % 32 ^ (level + 2) := by
        rw [← mod_pow_mod i (level + 1), Nat.mul_comm, Nat.div_add_mod]
      rw [hpos] at hcontents
      rw [mod_pow_div] at hc hcontents
      obtain ⟨hlt, -⟩ := List.getElem?_eq_some_iff.mp hc
      refine ⟨arr.set (i / 32 ^ (level + 1) % 32) (.node cs'), ?_,
        packed_set h hc hfull' fun _ => hpacked', List.length_set, fun hf => ?_, hcontents⟩
      · rw [vectorInsert, dataAt, subIdx_eq, hc]
        simp [slotNode, hrun, dataSet, hlt]
      · exact full_set hf _ (hfull' (hf.2 _ (List.mem_of_getElem? hc)))

/-! ## Growing and shrinking the tree -/

/-- What `push_tail` may return for `arr` and a chunk of contents `ts`: the
grown node, or `arr` itself because it is full, next to a node of the same
height for the chunk alone. -/
def PushTo (level : Nat) (arr : VectorNode) (ts : List Value) :
    VectorNode × Option VectorNode → Prop
  | (r, none) => Packed 32 (level + 1) (.node r) ∧ arr.length ≤ r.length
      ∧ r.flatMap Tree.toList = arr.flatMap Tree.toList ++ ts
  | (r, some e) => r = arr ∧ Full 32 (level + 2) (.node arr) ∧ Packed 32 (level + 1) (.node e)
      ∧ e.flatMap Tree.toList = ts

theorem doExpansion_ok {level : Nat} {arr newChild : VectorNode} (hlen : arr.length ≤ 32)
    (harr : ∀ c ∈ arr, Full 32 (level + 1) c) (hchild : Packed 32 level (.node newChild)) :
    PushTo level arr (newChild.flatMap Tree.toList) (doExpansion arr newChild) := by
  rw [doExpansion]
  by_cases h32 : arr.length = 32
  · rw [if_pos h32]
    exact ⟨rfl, ⟨h32, harr⟩, ⟨[], _, rfl, by decide, by simp, hchild⟩, by simp⟩
  · rw [if_neg h32, nodeCreateOnly_of_lt (by rw [List.length_append, List.length_singleton]; omega)]
    exact ⟨packed_snoc (by omega) harr hchild, by simp, by simp⟩

theorem pushTail_ok {tail : VectorNode} (htail : Full 32 1 (.node tail)) :
    ∀ {level : Nat} {arr : VectorNode},
      Packed 32 (level + 1) (.node arr) ∨ (level = 0 ∧ arr = []) →
      ∃ r, pushTail level arr tail = .ok r ∧ PushTo level arr (tail.flatMap Tree.toList) r
  | 0, arr, h => by
      have harr : arr.length ≤ 32 ∧ ∀ c ∈ arr, Full 32 1 c := by
        rcases h with ⟨front, last, rfl, hlen, hfront, hlast⟩ | ⟨-, rfl⟩
        · refine ⟨by rw [List.length_append, List.length_singleton]; omega, fun c hc => ?_⟩
          rcases List.mem_append.mp hc with hc | hc
          · exact hfront c hc
          · exact List.mem_singleton.mp hc ▸ hlast
        · exact ⟨by decide, by simp⟩
      exact ⟨_, rfl, doExpansion_ok harr.1 harr.2 htail⟩
  | level + 1, arr, h => by
      obtain ⟨front, last, rfl, hlen, hfront, hlast⟩ := h.resolve_right (by simp)
      obtain ⟨cs, rfl⟩ := hlast.exists_node
      obtain ⟨⟨r, e⟩, hrun, hto⟩ := pushTail_ok htail (Or.inl hlast)
      rw [pushTail, dataLast, List.getLast?_concat]
      cases e with
      | none =>
          obtain ⟨hr, -, hcontents⟩ := hto
          refine ⟨(front ++ [.node r], none), by simp [slotNode, hrun], packed_snoc hlen hfront hr,
            by simp, ?_⟩
          simp [hcontents]
      | some e =>
          -- the child is full, hence so are all children of this node
          obtain ⟨rfl, hfull, he, hcontents⟩ := hto
          refine ⟨doExpansion (front ++ [.node r]) e, by simp [slotNode, hrun], ?_⟩
          rw [← hcontents]
          refine doExpansion_ok ?_ (fun c hc => ?_) he
          · rw [List.length_append, List.length_singleton]; omega
          · rcases List.mem_append.mp hc with hc | hc
            · exact hfront c hc
            · exact List.mem_singleton.mp hc ▸ hfull

/-- What `pop_tail` may return for `arr` when the chunk taken off has
contents `ts`: `NULL` because nothing else was there, or the rest. -/
def PopTo (level : Nat) (arr : VectorNode) (ts : List Value) : Option VectorNode → Prop
  | none => arr.length = 1 ∧ arr.flatMap Tree.toList = ts
  | some r => Packed 32 (level + 1) (.node r) ∧ (r.length = arr.length ∨ r = arr.dropLast)
      ∧ arr.flatMap Tree.toList = r.flatMap Tree.toList ++ ts

theorem contraction_ok {level : Nat} {front : VectorNode} {last : Slot}
    (hlen : front.length < 32) (hfront : ∀ c ∈ front, Full 32 (level + 1) c) :
    PopTo level (front ++ [last]) last.toList (contraction (front ++ [last])) := by
  by_cases hnil : front = []
  · rw [hnil]
    exact ⟨rfl, by simp⟩
  · have hpos := List.length_pos_iff.mpr hnil
    rw [contraction, if_neg (by simp [hnil]), List.dropLast_concat,
      nodeCreateOnly_of_lt (by omega)]
    exact ⟨packed_of_full (by decide) hnil (by omega) hfront, Or.inr (by simp), by simp⟩

theorem popTail_ok : ∀ {level : Nat} {arr : VectorNode}, Packed 32 (level + 1) (.node arr) →
    ∃ r ts, popTail level arr = .ok (r, ts.map .leaf) ∧ ts.length = 32 ∧ PopTo level arr ts r
  | 0, arr, h => by
      obtain ⟨front, last, rfl, hlen, hfront, hlast⟩ := h
      obtain ⟨cs, rfl⟩ := hlast.exists_node
      obtain ⟨ts, rfl, hts⟩ := Full.chunk hlast
      refine ⟨_, ts, ?_, hts, Tree.toList_chunk ts ▸ contraction_ok hlen hfront⟩
      rw [popTail, dataLast, List.getLast?_concat]
      rfl
  | level + 1, arr, h => by
      obtain ⟨front, last, rfl, hlen, hfront, hlast⟩ := h
      obtain ⟨cs, rfl⟩ := hlast.exists_node
      obtain ⟨r, ts, hrun, hts, hto⟩ := popTail_ok hlast
      rw [popTail, dataLast, List.getLast?_concat]
      cases r with
      | none =>
          obtain ⟨-, rfl⟩ := hto
          refine ⟨contraction (front ++ [.node cs]), _, by simp [slotNode, hrun], hts, ?_⟩
          rw [← Tree.toList_node]
          exact contraction_ok hlen hfront
      | some r =>
          obtain ⟨hr, -, hcontents⟩ := hto
          refine ⟨some (front ++ [.node r]), ts, by simp [slotNode, hrun], hts,
            packed_snoc hlen hfront hr, Or.inl (by simp), ?_⟩
          simp [hcontents]

/-! ## The refinement relation -/

/-- A vector whose trie has `level + 1` levels of nodes above its chunks
and whose tail holds `ts`. -/
structure VecShape (v : Vec) (level : Nat) (ts : List Value) : Prop where
  shift : v.shift = 5 * (level + 1)
  tail : v.tail = ts.map .leaf
  room : ts.length ≤ 32
  root : Packed 32 (level + 1) (.node v.root) ∨ (level = 0 ∧ v.root = [])
  least : 0 < level → 2 ≤ v.root.length
  first : ts = [] → v.root = []

/-- The elements outside the tail. -/
def rootList (v : Vec) : List Value := v.root.flatMap Tree.toList

/-- Vector `v` represents the list `xs`. -/
def VecRepresents (v : Vec) (xs : List Value) : Prop :=
  ∃ level ts, VecShape v level ts ∧ xs = rootList v ++ ts ∧ v.cnt = xs.length

theorem vecRepresents_empty : VecRepresents vectorCreateEmpty [] :=
  ⟨0, [], ⟨rfl, rfl, by decide, Or.inr ⟨rfl, rfl⟩, by decide, fun _ => rfl⟩, rfl, rfl⟩

section Shape

variable {v : Vec} {level : Nat} {ts : List Value}

theorem VecShape.steps (h : VecShape v level ts) : v.shift / 5 = level + 1 := by
  rw [h.shift, Nat.mul_div_cancel_left _ (by decide)]

theorem VecShape.dvd (h : VecShape v level ts) : 32 ∣ (rootList v).length := by
  rcases h.root with hp | ⟨-, hnil⟩
  · have := hp.dvd_length
    rwa [Tree.toList_node] at this
  · rw [rootList, hnil]
    exact Nat.dvd_zero 32

/-- A position outside the tail is a position of the trie, all of whose
digits count. -/
theorem VecShape.inRoot (h : VecShape v level ts) {i : Nat} (hi : i < (rootList v).length) :
    Packed 32 (level + 1) (.node v.root) ∧ i % 32 ^ (level + 2) = i := by
  have hp : Packed 32 (level + 1) (.node v.root) := h.root.resolve_right fun ⟨_, hnil⟩ => by
    rw [rootList, hnil] at hi
    simp at hi
  have hle := hp.length_le
  rw [Tree.toList_node] at hle
  exact ⟨hp, Nat.mod_eq_of_lt (Nat.lt_of_lt_of_le hi hle)⟩

/-- The last five bits of a position of the tail are its offset there. -/
theorem VecShape.inTail (h : VecShape v level ts) {i : Nat} (hge : (rootList v).length ≤ i)
    (hi : i < (rootList v ++ ts).length) :
    subIdx i 0 = i - (rootList v).length ∧ i - (rootList v).length < ts.length := by
  obtain ⟨k, hk⟩ := h.dvd
  have := h.room
  rw [List.length_append] at hi
  rw [subIdx_eq, Nat.pow_zero, Nat.div_one]
  omega

theorem VecShape.tailoff (h : VecShape v level ts) (hcnt : v.cnt = (rootList v ++ ts).length) :
    tailoff v = (rootList v).length := by
  rw [Saurus.tailoff, hcnt, h.tail, List.length_append, List.length_map]
  omega

end Shape

/-! ## The operations -/

theorem vectorIndex_ok {v : Vec} {xs : List Value} (h : VecRepresents v xs) {i : Nat} {a : Value}
    (ha : xs[i]? = some a) : vectorIndex v i = .ok a := by
  obtain ⟨level, ts, hs, rfl, hcnt⟩ := h
  obtain ⟨hi, -⟩ := List.getElem?_eq_some_iff.mp ha
  rw [vectorIndex, if_pos ⟨by omega, by omega⟩, hs.tailoff hcnt, Int.toNat_natCast]
  rcases Nat.lt_or_ge i (rootList v).length with hlt | hge
  · obtain ⟨hp, hmod⟩ := hs.inRoot hlt
    obtain ⟨chunk, hrun, -, hchunk⟩ := descend_ok hp (by rw [hmod]; exact hlt)
    rw [List.getElem?_append_left hlt] at ha
    rw [hmod, ← rootList, ha] at hchunk
    rw [if_neg (by omega), hs.steps, hrun, Outcome.ok_bind, dataAt, subIdx_eq, Nat.pow_zero,
      Nat.div_one, List.getElem?_map, hchunk]
    rfl
  · obtain ⟨hidx, hlt⟩ := hs.inTail hge hi
    rw [List.getElem?_append_right hge] at ha
    rw [if_pos (by omega), hs.tail, dataAt, hidx, List.getElem?_map, ha]
    rfl

theorem vectorSet_ok {v : Vec} {xs : List Value} (h : VecRepresents v xs) {i : Nat}
    (hi : i < xs.length) (val : Value) :
    ∃ v', vectorSet v i val = .ok v' ∧ VecRepresents v' (xs.set i val) := by
  obtain ⟨level, ts, hs, rfl, hcnt⟩ := h
  rw [vectorSet, if_pos ⟨by omega, by omega⟩, hs.tailoff hcnt, Int.toNat_natCast]
  rcases Nat.lt_or_ge i (rootList v).length with hlt | hge
  · obtain ⟨hp, hmod⟩ := hs.inRoot hlt
    obtain ⟨root', hrun, hp', hlen, -, hset⟩ := vectorInsert_ok val hp (by rw [hmod]; exact hlt)
    rw [if_neg (by omega), hs.steps, hrun, Outcome.ok_bind]
    refine ⟨_, rfl, level, ts, ⟨hs.shift, hs.tail, hs.room, Or.inl hp', ?_, ?_⟩, ?_, ?_⟩
    · exact fun hl => hlen ▸ hs.least hl
    · exact fun hts => List.length_eq_zero_iff.mp (by rw [hlen, hs.first hts]; rfl)
    · rw [List.set_append_left _ _ hlt]
      simp [rootList, hset, hmod]
    · rw [List.length_set, ← hcnt]
  · obtain ⟨hidx, hlt⟩ := hs.inTail hge hi
    rw [if_pos (by omega), hs.tail, dataSet, hidx, List.length_map, decide_eq_true hlt]
    refine ⟨_, rfl, level, ts.set (i - (rootList v).length) val,
      ⟨hs.shift, List.map_set.symm, by rw [List.length_set]; exact hs.room, hs.root, hs.least,
        fun hnil => hs.first (by simpa using hnil)⟩, ?_, ?_⟩
    · rw [List.set_append_right _ _ hge]; rfl
    · rw [List.length_set, ← hcnt]

theorem vectorPush_ok {v : Vec} {xs : List Value} (h : VecRepresents v xs) (val : Value)
    (hcap : xs.length + 1 < 2 ^ 31) :
    ∃ v', vectorPush v val = .ok v' ∧ VecRepresents v' (xs ++ [val]) := by
  obtain ⟨level, ts, hs, rfl, hcnt⟩ := h
  rw [vectorPush, cntAdd_ok (by omega), Outcome.ok_bind]
  by_cases hroom : v.tail.length < 32
  · rw [if_pos hroom,
      nodeCreateOnly_of_lt (by rw [List.length_append, List.length_singleton]; omega)]
    refine ⟨_, rfl, level, ts ++ [val], ⟨hs.shift, by simp [hs.tail], ?_, hs.root, hs.least,
      fun hnil => by simp at hnil⟩, by simp [rootList], by simp [hcnt]; omega⟩
    rw [hs.tail, List.length_map] at hroom
    rw [List.length_append, List.length_singleton]
    omega
  · -- the tail is a complete chunk and moves into the trie
    have hlen : ts.length = 32 := by
      rw [hs.tail, List.length_map] at hroom
      exact Nat.le_antisymm hs.room (by omega)
    obtain ⟨⟨r, e⟩, hrun, hto⟩ := pushTail_ok (full_chunk hlen) hs.root
    rw [if_neg hroom, hs.steps, Nat.add_sub_cancel, hs.tail, hrun, Outcome.ok_bind]
    rw [← Tree.toList_node, Tree.toList_chunk] at hto
    cases e with
    | none =>
        obtain ⟨hp, hle, hcontents⟩ := hto
        refine ⟨_, rfl, level, [val], ⟨hs.shift, rfl, by simp, Or.inl hp,
          fun hl => Nat.le_trans (hs.least hl) hle, fun hnil => by cases hnil⟩, ?_, ?_⟩
        · simp [rootList, hcontents]
        · simp [hcnt]; omega
    | some e =>
        obtain ⟨rfl, hfull, he, hcontents⟩ := hto
        refine ⟨_, rfl, level + 1, [val], ⟨by dsimp only; rw [hs.shift]; omega, rfl, by simp,
          Or.inl ⟨[.node v.root], _, rfl, by simp, by simpa using hfull, he⟩,
          fun _ => by simp, fun hnil => by cases hnil⟩, ?_, ?_⟩
        · simp [rootList, hcontents]
        · simp [hcnt]; omega

/-- When a root keeps one child only, that child is full and can take over. -/
theorem shrink_ok {level : Nat} {arr r : VectorNode} (hp : Packed 32 (level + 2) (.node arr))
    (hlen : 2 ≤ arr.length) (hr : r.length = arr.length ∨ r = arr.dropLast)
    (hone : r.length = 1) :
    ∃ cs, r = [.node cs] ∧ Packed 32 (level + 1) (.node cs) ∧ cs.length = 32 := by
  obtain ⟨front, last, rfl, -, hfront, -⟩ := hp
  rcases hr with hr | rfl
  · omega
  rw [List.dropLast_concat] at hone ⊢
  obtain ⟨t, rfl⟩ := List.length_eq_one_iff.mp hone
  have hfull := hfront t List.mem_cons_self
  obtain ⟨cs, rfl, h32, -⟩ := hfull.exists_node
  exact ⟨cs, rfl, hfull.packed (by decide), h32⟩

theorem vectorPop_ok {v : Vec} {xs : List Value} (h : VecRepresents v xs) (hne : xs ≠ []) :
    ∃ v', vectorPop v = .ok v' ∧ VecRepresents v' xs.dropLast := by
  obtain ⟨level, ts, hs, rfl, hcnt⟩ := h
  have hpos := List.length_pos_iff.mpr hne
  rw [vectorPop, if_neg (by omega)]
  by_cases hone : v.cnt = 1
  · refine ⟨vectorCreateEmpty, by rw [if_pos hone]; rfl, ?_⟩
    have hnil : (rootList v ++ ts).dropLast = [] :=
      List.length_eq_zero_iff.mp (by rw [List.length_dropLast]; omega)
    rw [hnil]
    exact vecRepresents_empty
  have hts : ts ≠ [] := fun hnil => hne (by rw [rootList, hs.first hnil, hnil]; rfl)
  have hdrop : (rootList v ++ ts).dropLast = rootList v ++ ts.dropLast :=
    List.dropLast_append_of_ne_nil hts
  have hcnt' : v.cnt - 1 = (rootList v ++ ts.dropLast).length := by
    rw [← hdrop, List.length_dropLast]
    omega
  rw [if_neg hone, hdrop]
  by_cases hmany : v.tail.length > 1
  · have hlen : 1 < ts.length := by rwa [hs.tail, List.length_map] at hmany
    have hroom := hs.room
    rw [if_pos hmany,
      nodeCreateOnly_of_lt (by rw [List.length_dropLast, hs.tail, List.length_map]; omega)]
    refine ⟨_, rfl, level, ts.dropLast, ⟨hs.shift, by rw [hs.tail, List.map_dropLast], ?_,
      hs.root, hs.least, fun hnil => ?_⟩, rfl, hcnt'⟩
    · rw [List.length_dropLast]; omega
    · have := congrArg List.length hnil
      rw [List.length_dropLast, List.length_nil] at this
      omega
  · -- the tail had one element; the last chunk of the trie becomes the tail
    have hlen : ts.length = 1 := by
      rw [hs.tail, List.length_map] at hmany
      have := List.length_pos_iff.mpr hts
      omega
    obtain ⟨t, rfl⟩ := List.length_eq_one_iff.mp hlen
    rw [List.dropLast_singleton, List.append_nil] at hcnt' ⊢
    have hp : Packed 32 (level + 1) (.node v.root) := hs.root.resolve_right fun ⟨_, hnil⟩ => by
      rw [rootList, hnil] at hcnt
      exact hone hcnt
    obtain ⟨r, us, hrun, hus, hto⟩ := popTail_ok hp
    have hne' : us = [] → False := fun hnil => by rw [hnil] at hus; cases hus
    rw [if_neg hmany, hs.steps, Nat.add_sub_cancel, hrun, Outcome.ok_bind]
    cases r with
    | none =>
        -- nothing is left in the trie, which therefore has its least height
        obtain ⟨hroot, hcontents⟩ := hto
        have hlevel : level = 0 := by
          by_contra hl
          have := hs.least (by omega)
          omega
        refine ⟨⟨v.cnt - 1, v.shift, [], us.map .leaf⟩, ?_, level, us,
          ⟨hs.shift, rfl, Nat.le_of_eq hus, Or.inr ⟨hlevel, rfl⟩, fun hl => by omega,
            fun _ => rfl⟩, ?_, hcnt'⟩
        · simp [hs.shift, hlevel]
        · rw [rootList, hcontents]; rfl
    | some r =>
        obtain ⟨hr, hlenr, hcontents⟩ := hto
        by_cases hshrink : v.shift > 5 ∧ r.length = 1
        · obtain ⟨k, rfl⟩ : ∃ k, level = k + 1 :=
            Nat.exists_eq_succ_of_ne_zero fun hl => by rw [hs.shift, hl] at hshrink; omega
          obtain ⟨cs, rfl, hcs, h32⟩ := shrink_ok hp (hs.least (by omega)) hlenr hshrink.2
          refine ⟨⟨v.cnt - 1, v.shift - 5, cs, us.map .leaf⟩, ?_, k, us,
            ⟨by dsimp only; rw [hs.shift]; omega, rfl, Nat.le_of_eq hus, Or.inl hcs,
              fun _ => by dsimp only; omega, fun hnil => (hne' hnil).elim⟩, ?_, hcnt'⟩
          · simp [hshrink.1, dataAt, slotNode]
          · simpa [rootList] using hcontents
        · refine ⟨⟨v.cnt - 1, v.shift, r, us.map .leaf⟩, by simp [hshrink], level, us,
            ⟨hs.shift, rfl, Nat.le_of_eq hus, Or.inl hr, fun hl => ?_,
              fun hnil => (hne' hnil).elim⟩,
            hcontents, hcnt'⟩
          have hge := List.length_pos_iff.mpr (fun hnil : r = [] => by
            rw [hnil] at hr
            obtain ⟨_, _, heq, -⟩ := hr
            simp at heq)
          have : ¬ r.length = 1 := fun h1 => hshrink ⟨by rw [hs.shift]; omega, h1⟩
          dsimp only
          omega

/-- Outside the bounds the accesses end in the program's own error. -/
theorem vector_outside {v : Vec} {xs : List Value} (h : VecRepresents v xs) {i : Int}
    (hi : i < 0 ∨ xs.length ≤ i) :
    (vectorIndex v i).Raises ∧ ∀ val, (vectorSet v i val).Raises := by
  obtain ⟨_, _, _, _, hcnt⟩ := h
  have hout : ¬ (0 ≤ i ∧ i < v.cnt) := by omega
  exact ⟨⟨_, if_neg hout⟩, fun val => ⟨_, if_neg hout⟩⟩

theorem vectorPop_empty {v : Vec} (h : VecRepresents v []) : (vectorPop v).Raises := by
  obtain ⟨_, _, _, _, hcnt⟩ := h
  exact ⟨_, if_pos hcnt⟩

/-! ## Runs -/

/-- The updates of a run. -/
inductive VecOp where
  | push (val : Value)
  | pop
  | set (i : Int) (val : Value)
deriving Repr, DecidableEq

/-- One update on the list, `none` when the list has nothing to update. -/
def VecOp.abstract (xs : List Value) : VecOp → Option (List Value)
  | .push val => some (xs ++ [val])
  | .pop => if xs = [] then none else some xs.dropLast
  | .set i val => if 0 ≤ i ∧ i < xs.length then some (xs.set i.toNat val) else none

/-- The same update on the vector of the VM. -/
def VecOp.run (v : Vec) : VecOp → Outcome Vec
  | .push val => vectorPush v val
  | .pop => vectorPop v
  | .set i val => vectorSet v i val

def listRun (ops : List VecOp) : Option (List Value) := ops.foldlM VecOp.abstract []

def runVec (ops : List VecOp) : Outcome Vec := ops.foldlM VecOp.run vectorCreateEmpty

/-- The update of the list and the update of the vector agree, errors
included. -/
def Agrees (r : Outcome Vec) : Option (List Value) → Prop
  | none => r.Raises
  | some xs => ∃ v, r = .ok v ∧ VecRepresents v xs

theorem vecRepresents_step {v : Vec} {xs : List Value} (h : VecRepresents v xs) (op : VecOp)
    (hcap : ∀ ys, op.abstract xs = some ys → ys.length < 2 ^ 31) :
    Agrees (op.run v) (op.abstract xs) := by
  cases op with
  | push val =>
      have := hcap _ rfl
      exact vectorPush_ok h val (by rwa [List.length_append] at this)
  | pop =>
      rw [VecOp.abstract]
      by_cases hnil : xs = []
      · rw [if_pos hnil]
        exact vectorPop_empty (hnil ▸ h)
      · rw [if_neg hnil]
        exact vectorPop_ok h hnil
  | set i val =>
      rw [VecOp.abstract]
      by_cases hi : 0 ≤ i ∧ i < xs.length
      · rw [if_pos hi]
        obtain ⟨k, rfl⟩ := Int.eq_ofNat_of_zero_le hi.1
        exact vectorSet_ok h (by omega) val
      · rw [if_neg hi]
        exact (vector_outside h (by omega)).2 val

theorem vecRepresents_run : ∀ (ops : List VecOp) {v : Vec} {xs : List Value}, VecRepresents v xs →
    (∀ pre, pre <+: ops → ∀ ys, pre.foldlM VecOp.abstract xs = some ys → ys.length < 2 ^ 31) →
    Agrees (ops.foldlM VecOp.run v) (ops.foldlM VecOp.abstract xs)
  | [], v, xs, h, _ => ⟨v, rfl, h⟩
  | op :: ops, v, xs, h, hcap => by
      have hstep := vecRepresents_step h op fun ys hys =>
        hcap [op] (List.prefix_append [op] ops) ys (by simp [hys])
      rw [List.foldlM_cons, List.foldlM_cons]
      cases habs : op.abstract xs with
      | none =>
          rw [habs] at hstep
          obtain ⟨msg, hmsg⟩ := hstep
          exact ⟨msg, by rw [hmsg]; rfl⟩
      | some ys =>
          rw [habs] at hstep
          obtain ⟨v1, h1, hr1⟩ := hstep
          rw [h1]
          exact vecRepresents_run ops hr1 fun pre hpre zs hzs =>
            hcap (op :: pre) (List.cons_prefix_cons.mpr ⟨rfl, hpre⟩) zs (by simp [habs, hzs])

theorem length_step_le {xs ys : List Value} {op : VecOp} (h : op.abstract xs = some ys) :
    ys.length ≤ xs.length + 1 := by
  cases op with
  | push val => cases h; simp
  | pop =>
      obtain ⟨-, heq⟩ := Option.ite_none_left_eq_some.mp h
      cases heq
      rw [List.length_dropLast]
      omega
  | set i val =>
      obtain ⟨-, heq⟩ := Option.ite_none_right_eq_some.mp h
      cases heq
      rw [List.length_set]
      omega

theorem length_run_le : ∀ {ops : List VecOp} {xs ys : List Value},
    ops.foldlM VecOp.abstract xs = some ys → ys.length ≤ xs.length + ops.length
  | [], xs, ys, h => by cases h; simp
  | op :: ops, xs, ys, h => by
      rw [List.foldlM_cons] at h
      obtain ⟨zs, hz, h⟩ := Option.bind_eq_some_iff.mp h
      have hstep := length_step_le hz
      have hrest := length_run_le h
      rw [List.length_cons]
      omega

/-- **Vectors refine lists.** A sequence of pushes, pops and updates from
the empty vector fails exactly where the list has nothing to update.
Otherwise `vector_length` is the length of the list, `vector_index` its
elements, and every access outside raises an error. -/
theorem vector_refines_list (ops : List VecOp)
    (hcap : ∀ pre, pre <+: ops → ∀ ys, listRun pre = some ys → ys.length < 2 ^ 31) :
    match listRun ops with
    | none => (runVec ops).Raises
    | some xs => ∃ v, runVec ops = .ok v ∧ vectorLength v = xs.length
        ∧ (∀ (i : Nat) a, xs[i]? = some a → vectorIndex v i = .ok a)
        ∧ (∀ i : Int, i < 0 ∨ xs.length ≤ i →
            (vectorIndex v i).Raises ∧ ∀ val, (vectorSet v i val).Raises)
        ∧ (xs = [] → (vectorPop v).Raises) := by
  have hrun := vecRepresents_run ops vecRepresents_empty hcap
  rw [← listRun, ← runVec] at hrun
  cases habs : listRun ops with
  | none => rw [habs] at hrun; exact hrun
  | some xs =>
      rw [habs] at hrun
      obtain ⟨v, hv, hr⟩ := hrun
      have hlen : vectorLength v = xs.length := hr.choose_spec.choose_spec.2.2
      exact ⟨v, hv, hlen, fun i a => vectorIndex_ok hr, fun i => vector_outside hr,
        fun hnil => vectorPop_empty (hnil ▸ hr)⟩

theorem abstract_pushes (x : Value) : ∀ (n : Nat) (xs : List Value),
    (List.replicate n (VecOp.push x)).foldlM VecOp.abstract xs = some (xs ++ List.replicate n x)
  | 0, xs => by simp
  | n + 1, xs => by
      rw [List.replicate_succ, List.foldlM_cons, List.replicate_succ, List.append_cons]
      exact abstract_pushes x n (xs ++ [x])

theorem abstract_pops : ∀ (n : Nat) {xs : List Value}, n ≤ xs.length →
    (List.replicate n VecOp.pop).foldlM VecOp.abstract xs = some (xs.take (xs.length - n))
  | 0, xs, _ => by simp
  | n + 1, xs, h => by
      have hne : xs ≠ [] := List.ne_nil_of_length_pos (by omega)
      have hlen : xs.dropLast.length = xs.length - 1 := List.length_dropLast
      rw [List.replicate_succ, List.foldlM_cons, VecOp.abstract, if_neg hne]
      change (List.replicate n VecOp.pop).foldlM VecOp.abstract xs.dropLast = _
      rw [abstract_pops n (by omega), hlen, List.dropLast_eq_take, List.take_take]
      congr 2
      omega

/-- A list grows, an element in it is overwritten, and it shrinks again. -/
theorem listRun_grow {n k i : Nat} (hi : i < n) (hk : k ≤ n) (x y : Value) :
    listRun (List.replicate n (.push x) ++ (.set (i : Int) y :: List.replicate k VecOp.pop))
      = some (((List.replicate n x).set i y).take (n - k)) := by
  have hin : 0 ≤ (i : Int) ∧ (i : Int) < (List.replicate n x).length := by
    rw [List.length_replicate]
    omega
  rw [listRun, List.foldlM_append, abstract_pushes, Option.bind_eq_bind, Option.bind_some,
    List.nil_append, List.foldlM_cons, VecOp.abstract, if_pos hin, Option.bind_eq_bind,
    Option.bind_some, abstract_pops k (by rwa [List.length_set, List.length_replicate]),
    List.length_set, List.length_replicate]
  rfl

/-- It grows into a trie of two levels and shrinks to one of one. -/
theorem vector_refines_list_grown :
    ∃ v, runVec (List.replicate 1060 (.push ⟨.nil, 0#64⟩)
        ++ (.set (40 : Nat) ⟨.nil, 1#64⟩ :: List.replicate 10 VecOp.pop)) = .ok v
      ∧ vectorLength v = 1050 ∧ vectorIndex v (40 : Nat) = .ok ⟨.nil, 1#64⟩
      ∧ vectorIndex v (1049 : Nat) = .ok ⟨.nil, 0#64⟩ ∧ (vectorIndex v 1050).Raises := by
  generalize hops : List.replicate 1060 (VecOp.push ⟨.nil, 0#64⟩)
    ++ (.set (40 : Nat) ⟨.nil, 1#64⟩ :: List.replicate 10 VecOp.pop) = ops
  have hlist : listRun ops = some ((List.replicate 1050 ⟨.nil, 0#64⟩).set 40 ⟨.nil, 1#64⟩) := by
    rw [← hops, listRun_grow (by decide) (by decide), List.take_set, List.take_replicate]
    rfl
  have hcount : ops.length = 1071 := by
    rw [← hops, List.length_append, List.length_cons, List.length_replicate, List.length_replicate]
  have hrun := vector_refines_list ops fun pre hpre ys hys => by
    have hle := length_run_le hys
    have hlen := hpre.length_le
    rw [List.length_nil] at hle
    omega
  rw [hlist] at hrun
  obtain ⟨v, hv, hlen, hindex, houtside, -⟩ := hrun
  rw [List.length_set, List.length_replicate] at hlen houtside
  refine ⟨v, hv, hlen, hindex 40 _ ?_, hindex 1049 _ ?_, (houtside 1050 (Or.inr ?_)).1⟩
  · exact List.getElem?_set_self (by rw [List.length_replicate]; decide)
  · rw [List.getElem?_set_ne (by decide), List.getElem?_replicate_of_lt (by decide)]
  · decide

end Saurus
