import Mathlib.Data.Finmap
import Saurus.Map.Without

/-!
# Maps refine finite maps

What a map is for: a finite map whose keys are a hash together with a
value, taken up to `value_eq`. `MapKey` is that quotient and `Finmap` the
abstract state; `Represents m f` is the refinement relation. The
operations preserve it one by one (`mapInsert_ok`, `mapRemove_ok`) and so
does every sequence of them (`represents_run`).

The two size limits of the source are hypotheses of the run: a bucket
stores its length in an `unsigned char`, and `cnt` is an `int`.
-/

namespace Saurus

open Basis Basis.Keyed

/-! ## The abstract finite map -/

/-- Two keys the map does not tell apart. -/
def keySetoid : Setoid (BitVec 32 × Value) where
  r p q := p.1 = q.1 ∧ valueEq p.2 q.2 = true
  iseqv :=
    ⟨fun _ => ⟨rfl, valueEq_refl _⟩, fun h => ⟨h.1.symm, valueEq_symm h.2⟩,
      fun h h' => ⟨h.1.trans h'.1, valueEq_trans h.2 h'.2⟩⟩

/-- A key of the abstract map: a hash and a value up to `value_eq`. -/
abbrev MapKey : Type := Quotient keySetoid

def mapKey (hash : BitVec 32) (key : Value) : MapKey :=
  Quotient.mk keySetoid (hash, key)

theorem mapKey_eq {h h' : BitVec 32} {k k' : Value} :
    mapKey h k = mapKey h' k' ↔ h = h' ∧ valueEq k k' = true :=
  ⟨Quotient.exact (s := keySetoid), fun h => Quotient.sound (s := keySetoid) h⟩

instance : DecidableRel keySetoid.r := fun p q =>
  inferInstanceAs (Decidable (p.1 = q.1 ∧ valueEq p.2 q.2 = true))

instance : DecidableEq MapKey :=
  @Quotient.decidableEq _ keySetoid fun p q =>
    inferInstanceAs (Decidable (p.1 = q.1 ∧ valueEq p.2 q.2 = true))

/-- The hash part of a key. -/
def MapKey.hash (k : MapKey) : BitVec 32 :=
  Quotient.lift (s := keySetoid) Prod.fst (fun _ _ h => h.1) k

/-- Abstract state of a map. -/
abbrev KeyMap : Type := Finmap fun _ : MapKey => Value

/-- Number of keys present that share the hash `h`. -/
def bucketCard (f : KeyMap) (h : BitVec 32) : Nat :=
  (f.keys.filter fun k => k.hash = h).card

/-- The updates of a run. -/
inductive MapOp where
  | insert (key : Value) (hash : BitVec 32) (val : Value)
  | remove (key : Value) (hash : BitVec 32)
deriving Repr, DecidableEq

/-- One update on the abstract map. -/
def MapOp.abstract (f : KeyMap) : MapOp → KeyMap
  | .insert key hash val => f.insert (mapKey hash key) val
  | .remove key hash => f.erase (mapKey hash key)

/-- The same update on the map of the VM. -/
def MapOp.run (m : HMap) : MapOp → Outcome HMap
  | .insert key hash val => mapInsert m key hash val
  | .remove key hash => mapRemove m key hash

def abstractRun (ops : List MapOp) : KeyMap := ops.foldl MapOp.abstract ∅

def runOps (ops : List MapOp) : Outcome HMap := ops.foldlM MapOp.run mapCreateEmpty

/-! ## The refinement relation -/

/-- A map that is `map_create_empty` or has a shaped root. -/
def RootShaped (n : Node) : Prop := n = .empty ∨ Shaped 0 n

/-- Map `m` represents the finite map `f`. -/
structure Represents (m : HMap) (f : KeyMap) : Prop where
  root : RootShaped m.root
  found : ∀ h k v, f.lookup (mapKey h k) = some v →
    ∃ w, nodeFind m.root h k = .ok (some w) ∧ valueEq v w = true
  absent : ∀ h k, f.lookup (mapKey h k) = none → nodeFind m.root h k = .ok none
  count : m.cnt = f.keys.card

theorem Represents.find_none {m : HMap} {f : KeyMap} (hr : Represents m f)
    {h : BitVec 32} {k : Value} :
    nodeFind m.root h k = .ok none ↔ mapKey h k ∉ f := by
  rw [← Finmap.lookup_eq_none]
  refine ⟨fun hf => ?_, hr.absent h k⟩
  cases hl : f.lookup (mapKey h k) with
  | none => rfl
  | some v =>
      obtain ⟨w, hw, -⟩ := hr.found h k v hl
      rw [hw] at hf
      simp at hf

theorem represents_empty : Represents mapCreateEmpty ∅ where
  root := Or.inl rfl
  found := fun h k v hl => by rw [Finmap.lookup_empty] at hl; cases hl
  absent := fun h k _ => by rw [mapCreateEmpty, nodeFind]; rfl
  count := by rw [Finmap.keys_empty]; rfl

theorem keys_insert (f : KeyMap) (k : MapKey) (v : Value) :
    (f.insert k v).keys = insert k f.keys :=
  Finset.ext fun a => by rw [Finmap.mem_keys, Finmap.mem_insert, Finset.mem_insert, Finmap.mem_keys]

/-! ## One insertion -/

/-- The bucket of a key that is about to be added is not full. -/
theorem room_of_bucketCard {m : HMap} {f : KeyMap} (hr : Represents m f)
    {hash : BitVec 32} {key val : Value}
    (hb : bucketCard (f.insert (mapKey hash key) val) hash ≤ 255) :
    Room m.root hash key := by
  intro hnone ks hks hfound
  have hnot := hr.find_none.mp hnone
  -- the keys of the bucket and the new key are distinct keys of the new map
  have hmem : ∀ x ∈ ks, mapKey hash x ∈ f := fun x hx => by
    by_contra hno
    obtain ⟨v, hv⟩ := hfound x hx
    rw [hr.find_none.mpr hno] at hv
    simp at hv
  have hnodup : (ks.map (mapKey hash)).Nodup := by
    refine List.pairwise_map.mpr (hks.imp fun hab heq => ?_)
    rw [(mapKey_eq.mp heq).2] at hab
    cases hab
  have hsub : insert (mapKey hash key) (ks.map (mapKey hash)).toFinset
      ⊆ (f.insert (mapKey hash key) val).keys.filter fun k => k.hash = hash := by
    intro a ha
    rw [Finset.mem_filter, keys_insert, Finset.mem_insert, Finmap.mem_keys]
    rcases Finset.mem_insert.mp ha with rfl | ha
    · exact ⟨Or.inl rfl, rfl⟩
    · obtain ⟨x, hx, rfl⟩ := List.mem_map.mp (List.mem_toFinset.mp ha)
      exact ⟨Or.inr (hmem x hx), rfl⟩
  have hcard := Finset.card_le_card hsub
  rw [Finset.card_insert_of_notMem, List.toFinset_card_of_nodup hnodup, List.length_map] at hcard
  · have := Nat.le_trans hcard hb
    omega
  · intro hin
    obtain ⟨x, hx, heq⟩ := List.mem_map.mp (List.mem_toFinset.mp hin)
    exact hnot (heq ▸ hmem x hx)

/-- `set` at the root of a map, the empty node included. -/
theorem rootSet_ok {n : Node} (hn : RootShaped n) {hash : BitVec 32} {key : Value}
    (val : Value) (hroom : Room n hash key) :
    ∃ r a, nodeSet setDepth hash key val n 0 = .ok (r, a) ∧ RootShaped (r.get n)
      ∧ Bound n (r.get n) hash key val ∧ (a = true ↔ nodeFind n hash key = .ok none)
      ∧ (r = .same → a = false) := by
  rcases hn with rfl | hn
  · refine ⟨.other (.leaf hash key val), true, rfl, Or.inr (.leaf ..),
      ⟨val, valueEq_refl _, fun h k => ?_⟩, by rw [nodeFind]; simp, fun h => by cases h⟩
    rw [SetTo.get, nodeFind_leaf, nodeFind]
    split <;> rfl
  · obtain ⟨r, a, hr⟩ := @nodeSet_ok hash key val setDepth n 0 hn rfl (by omega)
      (by simp [setDepth]) (fun h k v _ j hj => by omega) hroom
    exact ⟨r, a, hr.eq, Or.inr hr.shaped, hr.bound, hr.fresh, hr.same⟩

theorem mapInsert_ok {m : HMap} {f : KeyMap} (hr : Represents m f)
    {key val : Value} {hash : BitVec 32}
    (hbucket : bucketCard (f.insert (mapKey hash key) val) hash ≤ 255)
    (hcnt : (f.insert (mapKey hash key) val).keys.card < 2 ^ 31) :
    ∃ m', mapInsert m key hash val = .ok m'
      ∧ Represents m' (f.insert (mapKey hash key) val) := by
  obtain ⟨r, a, hrun, hshape, ⟨w, hw, hbound⟩, hfresh, hsame⟩ :=
    rootSet_ok hr.root val (room_of_bucketCard hr hbucket)
  have hcard : (f.insert (mapKey hash key) val).keys.card
      = if a = true then f.keys.card + 1 else f.keys.card := by
    rw [keys_insert]
    by_cases ha : a = true
    · rw [if_pos ha, Finset.card_insert_of_notMem]
      rw [Finmap.mem_keys]
      exact hr.find_none.mp (hfresh.mp ha)
    · rw [if_neg ha, Finset.insert_eq_of_mem]
      rw [Finmap.mem_keys]
      by_contra hno
      exact ha (hfresh.mpr (hr.find_none.mpr hno))
  -- the new root finds what the updated map holds
  have hrep : ∀ cnt : Int, cnt = (f.insert (mapKey hash key) val).keys.card →
      Represents ⟨cnt, r.get m.root⟩ (f.insert (mapKey hash key) val) := by
    refine fun cnt hc => ⟨hshape, fun h k v hl => ?_, fun h k hl => ?_, hc⟩ <;>
      dsimp only <;> rw [hbound]
    all_goals by_cases hk : h = hash ∧ valueEq k key = true
    · rw [if_pos hk]
      rw [mapKey_eq.mpr hk, Finmap.lookup_insert] at hl
      exact ⟨w, rfl, Option.some.inj hl ▸ hw⟩
    · rw [if_neg hk]
      rw [Finmap.lookup_insert_of_ne _ fun heq => hk (mapKey_eq.mp heq)] at hl
      exact hr.found h k v hl
    · rw [mapKey_eq.mpr hk, Finmap.lookup_insert] at hl
      cases hl
    · rw [if_neg hk]
      rw [Finmap.lookup_insert_of_ne _ fun heq => hk (mapKey_eq.mp heq)] at hl
      exact hr.absent h k hl
  rw [mapInsert, mapInsert?, hrun, Outcome.ok_bind]
  cases r with
  | same =>
      rw [hsame rfl, if_neg (by decide)] at hcard
      exact ⟨m, rfl, hrep m.cnt (by rw [hcard]; exact hr.count)⟩
  | other root =>
      by_cases ha : a = true
      · rw [if_pos ha] at hcard
        have hok : cntAdd m.cnt 1 = .ok (m.cnt + 1) := by
          have := hr.count
          exact cntAdd_ok (by omega)
        refine ⟨⟨m.cnt + 1, root⟩, by simp [ha, hok], hrep _ ?_⟩
        rw [hcard, hr.count]; push_cast; rfl
      · rw [if_neg ha] at hcard
        exact ⟨⟨m.cnt, root⟩, by simp [ha], hrep _ (by rw [hcard]; exact hr.count)⟩

/-- The key count of a map that took a new key without overflowing. -/
theorem card_of_mapInsert_ok {m m' : HMap} {f : KeyMap} (hr : Represents m f)
    {key val : Value} {hash : BitVec 32} (hnew : mapKey hash key ∉ f)
    (hbucket : bucketCard (f.insert (mapKey hash key) val) hash ≤ 255)
    (h : mapInsert m key hash val = .ok m') :
    (f.insert (mapKey hash key) val).keys.card < 2 ^ 31 := by
  obtain ⟨r, a, hrun, -, -, hfresh, hsame⟩ :=
    rootSet_ok hr.root val (room_of_bucketCard hr hbucket)
  have ha : a = true := hfresh.mpr (hr.find_none.mpr hnew)
  subst ha
  rw [keys_insert, Finset.card_insert_of_notMem (by rwa [Finmap.mem_keys])]
  rw [mapInsert, mapInsert?, hrun] at h
  cases r with
  | same => cases hsame rfl
  | other root =>
      have hc := hr.count
      by_contra hge
      have hadd : cntAdd m.cnt 1 = .fault := cntAdd_fault (by omega)
      rw [Outcome.ok_bind] at h
      simp [hadd] at h

/-! ## One removal -/

theorem erase_of_notMem {f : KeyMap} {k : MapKey} (h : k ∉ f) : f.erase k = f :=
  Finmap.ext_lookup fun a => by
    by_cases ha : a = k
    · rw [ha, Finmap.lookup_erase, (Finmap.lookup_eq_none).mpr h]
    · rw [Finmap.lookup_erase_ne ha]

theorem mapRemove_ok {m : HMap} {f : KeyMap} (hr : Represents m f) (key : Value)
    (hash : BitVec 32) :
    ∃ m', mapRemove m key hash = .ok m' ∧ Represents m' (f.erase (mapKey hash key)) := by
  rcases hr.root with hroot | hroot
  · have hnone : nodeFind m.root hash key = .ok none := by rw [hroot, nodeFind]; rfl
    refine ⟨m, ?_, by rw [erase_of_notMem (hr.find_none.mp hnone)]; exact hr⟩
    rw [mapRemove, mapRemove?, hroot, nodeWithout]; rfl
  obtain ⟨w, hw, hpost⟩ := nodeWithout_ok hroot hash key
  have hcard : (∃ v, nodeFind m.root hash key = .ok (some v)) →
      ((f.erase (mapKey hash key)).keys.card : Int) = f.keys.card - 1 := by
    rintro ⟨v, hv⟩
    have hmem : mapKey hash key ∈ f.keys := by
      rw [Finmap.mem_keys]
      by_contra hno
      rw [hr.find_none.mpr hno] at hv
      simp at hv
    have hpos := Finset.card_pos.mpr ⟨_, hmem⟩
    rw [Finmap.keys_erase, Finset.card_erase_of_mem hmem]
    omega
  rw [mapRemove, mapRemove?, hw, Outcome.ok_bind]
  cases w with
  | same =>
      refine ⟨m, rfl, ?_⟩
      rw [erase_of_notMem (hr.find_none.mp hpost)]
      exact hr
  | null =>
      obtain ⟨hfound, hnull⟩ := hpost
      -- the key removed was the only one
      have hempty : f.erase (mapKey hash key) = ∅ := by
        refine Finmap.ext_lookup fun a => ?_
        obtain ⟨⟨h, k⟩, rfl⟩ := Quotient.exists_rep a
        change Finmap.lookup (mapKey h k) _ = _
        rw [Finmap.lookup_empty]
        by_cases hk : h = hash ∧ valueEq k key = true
        · rw [mapKey_eq.mpr hk, Finmap.lookup_erase]
        · rw [Finmap.lookup_erase_ne fun heq => hk (mapKey_eq.mp heq)]
          exact Finmap.lookup_eq_none.mpr (hr.find_none.mp (hnull h k hk))
      refine ⟨mapCreateEmpty, rfl, ?_⟩
      rw [hempty]
      exact represents_empty
  | other root =>
      obtain ⟨hfound, hsh, hun⟩ := hpost
      refine ⟨⟨m.cnt - 1, root⟩, rfl, Or.inr hsh, fun h k v hl => ?_, fun h k hl => ?_, ?_⟩
      · dsimp only
        rw [hun]
        by_cases hk : h = hash ∧ valueEq k key = true
        · rw [mapKey_eq.mpr hk, Finmap.lookup_erase] at hl; cases hl
        · rw [if_neg hk]
          rw [Finmap.lookup_erase_ne fun heq => hk (mapKey_eq.mp heq)] at hl
          exact hr.found h k v hl
      · dsimp only
        rw [hun]
        by_cases hk : h = hash ∧ valueEq k key = true
        · rw [if_pos hk]
        · rw [if_neg hk]
          rw [Finmap.lookup_erase_ne fun heq => hk (mapKey_eq.mp heq)] at hl
          exact hr.absent h k hl
      · rw [hcard hfound, ← hr.count]

/-! ## Runs -/

/-- The size limits of the source along a run: bucket lengths fit an
`unsigned char`, the number of keys fits an `int`. -/
def Bounded (f : KeyMap) : Prop :=
  (∀ h, bucketCard f h ≤ 255) ∧ f.keys.card < 2 ^ 31

theorem represents_step {m : HMap} {f : KeyMap} (hr : Represents m f) (op : MapOp)
    (hb : Bounded (op.abstract f)) :
    ∃ m', op.run m = .ok m' ∧ Represents m' (op.abstract f) := by
  cases op with
  | insert key hash val => exact mapInsert_ok hr (hb.1 hash) hb.2
  | remove key hash => exact mapRemove_ok hr key hash

theorem represents_run : ∀ (ops : List MapOp) {m : HMap} {f : KeyMap}, Represents m f →
    (∀ pre, pre <+: ops → Bounded (pre.foldl MapOp.abstract f)) →
    ∃ m', ops.foldlM MapOp.run m = .ok m' ∧ Represents m' (ops.foldl MapOp.abstract f)
  | [], m, _, hr, _ => ⟨m, rfl, hr⟩
  | op :: ops, m, f, hr, hb => by
      obtain ⟨m1, h1, hr1⟩ := represents_step hr op
        (hb [op] (List.prefix_append [op] ops))
      obtain ⟨m', h', hr'⟩ := represents_run ops hr1 fun pre hpre =>
        hb (op :: pre) (List.cons_prefix_cons.mpr ⟨rfl, hpre⟩)
      exact ⟨m', by rw [List.foldlM_cons, h1, Outcome.ok_bind, h'], hr'⟩

/-! ## Short runs keep to the limits -/

theorem card_step_le (f : KeyMap) (op : MapOp) :
    (op.abstract f).keys.card ≤ f.keys.card + 1 := by
  cases op with
  | insert key hash val =>
      rw [MapOp.abstract, keys_insert]
      exact Finset.card_insert_le ..
  | remove key hash =>
      rw [MapOp.abstract, Finmap.keys_erase]
      exact Nat.le_succ_of_le (Finset.card_erase_le ..)

theorem card_run_le (ops : List MapOp) :
    ∀ f : KeyMap, (ops.foldl MapOp.abstract f).keys.card ≤ f.keys.card + ops.length := by
  induction ops with
  | nil => exact fun f => Nat.le_refl _
  | cons op ops ih =>
      intro f
      have hrest := ih (op.abstract f)
      have hstep := card_step_le f op
      rw [List.foldl_cons, List.length_cons]
      omega

/-- A run too short to fill a bucket meets both limits throughout. -/
theorem bounded_of_short {ops : List MapOp} (hlen : ops.length ≤ 255) :
    ∀ pre, pre <+: ops → Bounded (abstractRun pre) := by
  intro pre hpre
  have hcard : (abstractRun pre).keys.card ≤ pre.length := by
    simpa [abstractRun] using card_run_le pre ∅
  have hle := hpre.length_le
  refine ⟨fun h => Nat.le_trans (Finset.card_filter_le ..) (by omega), by omega⟩

/-- **Maps refine finite maps.** After any sequence of insertions and
removals from the empty map that keeps to the size limits, `map_get`
answers a value equal to the one the finite map holds and `SU_INV` where it
holds none, and `map_length` is its number of keys. -/
theorem map_refines_finmap (ops : List MapOp)
    (hbounds : ∀ pre, pre <+: ops → Bounded (abstractRun pre)) :
    ∃ m, runOps ops = .ok m ∧ mapLength m = (abstractRun ops).keys.card
      ∧ (∀ h k v, (abstractRun ops).lookup (mapKey h k) = some v →
          ∃ w, mapGet m k h = .ok w ∧ valueEq v w = true)
      ∧ (∀ h k, (abstractRun ops).lookup (mapKey h k) = none →
          ∃ w, mapGet m k h = .ok w ∧ w.type = .inv) := by
  obtain ⟨m, hm, hr⟩ := represents_run ops represents_empty hbounds
  refine ⟨m, hm, hr.count, fun h k v hl => ?_, fun h k hl => ?_⟩
  · obtain ⟨w, hw, hv⟩ := hr.found h k v hl
    exact ⟨w, by rw [mapGet, hw]; rfl, hv⟩
  · exact ⟨⟨.inv, 0#64⟩, by rw [mapGet, hr.absent h k hl]; rfl, rfl⟩

/-- Two colliding keys are inserted and one of them is removed again. -/
theorem map_refines_finmap_collision :
    let ops : List MapOp := [.insert ⟨.number, 1#64⟩ 7#32 ⟨.nil, 0#64⟩,
      .insert ⟨.number, 2#64⟩ 7#32 ⟨.nil, 1#64⟩, .remove ⟨.number, 1#64⟩ 7#32]
    ∃ m, runOps ops = .ok m ∧ mapLength m = (abstractRun ops).keys.card
      ∧ (∀ h k v, (abstractRun ops).lookup (mapKey h k) = some v →
          ∃ w, mapGet m k h = .ok w ∧ valueEq v w = true)
      ∧ (∀ h k, (abstractRun ops).lookup (mapKey h k) = none →
          ∃ w, mapGet m k h = .ok w ∧ w.type = .inv) :=
  map_refines_finmap _ (bounded_of_short (by decide))

end Saurus
