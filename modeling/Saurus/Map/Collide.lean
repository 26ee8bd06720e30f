import Saurus.Map.Bucket
import Saurus.World

/-!
# Inserting keys of one hash

A run of `map_insert` with different keys that all have the hash `h`. As
long as the bucket of `h` keeps to 255 keys the map holds them all; the
insertion that makes it 256 empties it, and the key inserted then is never
found again.
-/

namespace Saurus

open Basis Basis.Keyed

variable {h : BitVec 32}

/-! ## The run -/

/-- The pairs inserted one after the other. -/
def insertAll (m : HMap) (h : BitVec 32) (kvs : List (Value × Value)) : Outcome HMap :=
  kvs.foldlM (fun m p => mapInsert m p.1 h p.2) m

/-- The lengths the run calls `node_create_only` with. -/
def insertAsks (h : BitVec 32) : HMap → List (Value × Value) → List Nat
  | _, [] => []
  | m, p :: kvs => setAsks setDepth h p.1 p.2 m.root 0 ++
      match mapInsert m p.1 h p.2 with
      | .ok m' => insertAsks h m' kvs
      | _ => []

/-- The same run on the finite map. -/
def insertAbstract (f : KeyMap) (h : BitVec 32) (kvs : List (Value × Value)) : KeyMap :=
  kvs.foldl (fun f p => f.insert (mapKey h p.1) p.2) f

/-- The run loses no key of `kvs` on the map `m`, which holds `f`: each is
found with its value, the length grows by the number of new keys, and every
node is as long as it was to be. -/
def NoneLost (m : HMap) (f : KeyMap) (h : BitVec 32) (kvs : List (Value × Value)) : Prop :=
  ∃ m', insertAll m h kvs = .ok m'
    ∧ (∀ p ∈ kvs, ∃ w, mapGet m' p.1 h = .ok w ∧ valueEq p.2 w = true)
    ∧ mapLength m' = mapLength m + kvs.countP (fun p => decide (mapKey h p.1 ∉ f))
    ∧ ∀ len ∈ insertAsks h m kvs, len % 256 = len

/-! ## What the finite map holds -/

theorem insertAbstract_cons (f : KeyMap) (p : Value × Value) (kvs : List (Value × Value)) :
    insertAbstract f h (p :: kvs) = insertAbstract (f.insert (mapKey h p.1) p.2) h kvs := rfl

theorem keys_subset_insertAbstract (kvs : List (Value × Value)) :
    ∀ f : KeyMap, f.keys ⊆ (insertAbstract f h kvs).keys := by
  induction kvs with
  | nil => exact fun f => Finset.Subset.refl _
  | cons p kvs ih =>
      intro f
      refine Finset.Subset.trans ?_ (ih _)
      rw [keys_insert]
      exact Finset.subset_insert ..

theorem Bounded.mono {f g : KeyMap} (hsub : f.keys ⊆ g.keys) (hb : Bounded g) : Bounded f :=
  ⟨fun h => Nat.le_trans (Finset.card_le_card (Finset.filter_subset_filter _ hsub)) (hb.1 h),
    Nat.lt_of_le_of_lt (Finset.card_le_card hsub) hb.2⟩

theorem lookup_insertAbstract_of_ne {k : MapKey} :
    ∀ {kvs : List (Value × Value)} {f : KeyMap}, (∀ p ∈ kvs, mapKey h p.1 ≠ k) →
      (insertAbstract f h kvs).lookup k = f.lookup k
  | [], f, _ => rfl
  | p :: kvs, f, hne => by
      rw [insertAbstract_cons, lookup_insertAbstract_of_ne fun q hq =>
        hne q (List.mem_cons_of_mem _ hq)]
      exact Finmap.lookup_insert_of_ne _ (hne p List.mem_cons_self).symm

theorem mapKey_ne {k k' : Value} (hne : valueEq k k' = false) : mapKey h k' ≠ mapKey h k :=
  fun heq => by
    rw [valueEq_symm (mapKey_eq.mp heq).2] at hne
    cases hne

/-- Each pair is there at the end. -/
theorem lookup_insertAbstract : ∀ {kvs : List (Value × Value)} {f : KeyMap},
    Distinct valueEq kvs → ∀ p ∈ kvs, (insertAbstract f h kvs).lookup (mapKey h p.1) = some p.2
  | q :: kvs, f, hd, p, hp => by
      obtain ⟨hq, hd⟩ := List.pairwise_cons.mp hd
      rw [insertAbstract_cons]
      rcases List.mem_cons.mp hp with rfl | hp
      · rw [lookup_insertAbstract_of_ne fun q' hq' => mapKey_ne (hq q' hq')]
        exact Finmap.lookup_insert ..
      · exact lookup_insertAbstract hd p hp

/-- The keys are those before and the new ones. -/
theorem card_insertAbstract : ∀ {kvs : List (Value × Value)} {f : KeyMap},
    Distinct valueEq kvs → (insertAbstract f h kvs).keys.card
      = f.keys.card + kvs.countP (fun p => decide (mapKey h p.1 ∉ f))
  | [], f, _ => rfl
  | p :: kvs, f, hd => by
      obtain ⟨hp, hd⟩ := List.pairwise_cons.mp hd
      have hcount : kvs.countP (fun q => decide (mapKey h q.1 ∉ f.insert (mapKey h p.1) p.2))
          = kvs.countP (fun q => decide (mapKey h q.1 ∉ f)) := by
        refine List.countP_congr fun q hq => ?_
        have hne := mapKey_ne (h := h) (hp q hq)
        simp [Finmap.mem_insert, hne]
      rw [insertAbstract_cons, card_insertAbstract hd, hcount, keys_insert]
      by_cases hmem : mapKey h p.1 ∈ f
      · rw [Finset.insert_eq_of_mem (Finmap.mem_keys.mpr hmem),
          List.countP_cons_of_neg (by simpa using hmem)]
      · rw [Finset.card_insert_of_notMem (fun hk => hmem (Finmap.mem_keys.mp hk)),
          List.countP_cons_of_pos (by simpa using hmem)]
        omega

/-! ## Within the limits -/

/-- While the limits hold all the way the map holds what the finite map does. -/
theorem insertAll_ok : ∀ {kvs : List (Value × Value)} {m : HMap} {f : KeyMap},
    Represents m f → Bounded (insertAbstract f h kvs) →
    ∃ m', insertAll m h kvs = .ok m' ∧ Represents m' (insertAbstract f h kvs)
      ∧ ∀ len ∈ insertAsks h m kvs, len < 256
  | [], m, f, hr, _ => ⟨m, rfl, hr, fun len hmem => absurd hmem List.not_mem_nil⟩
  | p :: kvs, m, f, hr, hb => by
      have hb1 := hb.mono (keys_subset_insertAbstract kvs (f.insert (mapKey h p.1) p.2))
      obtain ⟨m1, h1, hr1⟩ := mapInsert_ok hr (hb1.1 h) hb1.2
      obtain ⟨m', h', hr', hasks⟩ := insertAll_ok hr1 hb
      refine ⟨m', by rw [insertAll, List.foldlM_cons, h1]; exact h', hr', fun len hmem => ?_⟩
      rw [insertAsks, h1] at hmem
      rcases List.mem_append.mp hmem with hmem | hmem
      · rcases hr.root with hroot | hroot
        · rw [hroot] at hmem
          cases hmem
        · exact setAsks_fit _ hroot (room_of_bucketCard hr (hb1.1 h)) len hmem
      · exact hasks len hmem

/-! ## Past the limits -/

/-- Two keys of one hash or more are in a bucket at the end of its path. -/
theorem bucket_of_card {m : HMap} {f : KeyMap} (hr : Represents m f) (hcard : 1 < bucketCard f h) :
    ∃ d kvs, LeadsTo h 0 m.root d kvs ∧ d < setDepth ∧ bucketCard f h ≤ kvs.length
      ∧ kvs.length ≤ 255 := by
  have hfind : ∀ a ∈ f.keys.filter fun k => k.hash = h,
      ∃ k v, a = mapKey h k ∧ nodeFind m.root h k = .ok (some v) := by
    intro a ha
    obtain ⟨hmem, hhash⟩ := Finset.mem_filter.mp ha
    obtain ⟨⟨h', k⟩, rfl⟩ := Quotient.exists_rep a
    obtain rfl : h' = h := hhash
    cases hl : f.lookup (mapKey h' k) with
    | none => exact absurd (Finmap.mem_keys.mp hmem) (Finmap.lookup_eq_none.mp hl)
    | some v =>
        obtain ⟨w, hw, -⟩ := hr.found h' k v hl
        exact ⟨k, w, rfl, hw⟩
  obtain ⟨a, ha, b, hb, hab⟩ := Finset.one_lt_card.mp hcard
  obtain ⟨k, v, rfl, hk⟩ := hfind a ha
  obtain ⟨k', v', rfl, hk'⟩ := hfind b hb
  have hne : valueEq k k' = false :=
    Bool.eq_false_iff.mpr fun heq => hab (mapKey_eq.mpr ⟨rfl, heq⟩)
  have hshaped : Shaped 0 m.root := hr.root.resolve_left fun hroot => by
    rw [hroot, nodeFind] at hk
    cases hk
  obtain ⟨d, kvs, he, -, hlen, hdepth⟩ := hshaped.ends hk hk' hne
  have hsub : (f.keys.filter fun k => k.hash = h)
      ⊆ (kvs.map fun p => mapKey h p.1).toFinset := by
    intro a ha
    obtain ⟨k, v, rfl, hk⟩ := hfind a ha
    rw [he.find] at hk
    cases hl : lookup valueEq kvs k with
    | none => rw [hl] at hk; cases hk
    | some v =>
        have hsome : ¬ lookup valueEq kvs k = none := by rw [hl]; simp
        rw [lookup_eq_none_iff] at hsome
        push Not at hsome
        obtain ⟨p, hp, heq⟩ := hsome
        exact List.mem_toFinset.mpr (List.mem_map.mpr
          ⟨p, hp, mapKey_eq.mpr ⟨rfl, valueEq_symm (by simpa using heq)⟩⟩)
  have hle := Nat.le_trans (Finset.card_le_card hsub) (List.toFinset_card_le _)
  rw [List.length_map] at hle
  refine ⟨d, kvs, he, ?_, hle, hlen⟩
  rw [setDepth]
  omega

/-- A map with an `int` for its length is within the limits. -/
theorem Represents.bounded {m : HMap} {f : KeyMap} (hr : Represents m f) (hcnt : m.cnt < 2 ^ 31) :
    Bounded f := by
  refine ⟨fun h => ?_, by have := hr.count; omega⟩
  by_cases hone : 1 < bucketCard f h
  · obtain ⟨d, kvs, -, -, hle, hlen⟩ := bucket_of_card hr hone
    exact Nat.le_trans hle hlen
  · omega

/-- An insertion into a bucket, its length within limits or not. -/
theorem LeadsTo.insert {m : HMap} {d : Nat} {kvs : List (Value × Value)}
    (he : LeadsTo h 0 m.root d kvs)
    (hd : d < setDepth) (key val : Value) {m' : HMap} (hm : mapInsert m key h val = .ok m') :
    LeadsTo h 0 m'.root d (bucketSet kvs key val).1 := by
  obtain ⟨n', hset, hends⟩ := he.set key val hd
  rw [mapInsert, mapInsert?, hset, Outcome.ok_bind] at hm
  obtain ⟨r, hr, rfl⟩ := Outcome.map_eq_ok.mp hm
  cases hadded : (bucketSet kvs key val).2 with
  | false =>
      rw [hadded] at hr
      cases hr
      exact hends
  | true =>
      rw [hadded] at hr
      obtain ⟨cnt, -, hr⟩ := Outcome.bind_eq_ok.mp hr
      cases hr
      exact hends

/-- An update of a bucket brings no other key in. -/
theorem absent_bucketSet {kvs : List (Value × Value)} {key k : Value} (val : Value)
    (hk : ∀ p ∈ kvs, valueEq key p.1 = false) (hne : valueEq key k = false) :
    ∀ p ∈ (bucketSet kvs k val).1, valueEq key p.1 = false := by
  unfold bucketSet
  cases position valueEq kvs k with
  | some i =>
      intro p hp
      rcases List.mem_or_eq_of_mem_set hp with hp | rfl
      · exact hk p hp
      · exact hne
  | none =>
      intro p hp
      rcases List.mem_append.mp (List.mem_of_mem_take hp) with hp | hp
      · exact hk p hp
      · rw [List.mem_singleton.mp hp]
        exact hne

/-- A key that is not in its bucket stays out while others come in. -/
theorem LeadsTo.absent_insertAll {key : Value} {d : Nat} (hd : d < setDepth) :
    ∀ {rest : List (Value × Value)} {m m' : HMap} {kvs : List (Value × Value)},
      LeadsTo h 0 m.root d kvs → (∀ p ∈ kvs, valueEq key p.1 = false) →
      (∀ p ∈ rest, valueEq key p.1 = false) → insertAll m h rest = .ok m' →
      nodeFind m'.root h key = .ok none
  | [], m, m', kvs, he, hk, _, hrun => by
      cases hrun
      rw [he.find, lookup_eq_none_iff.mpr hk]
  | p :: rest, m, m', kvs, he, hk, hrest, hrun => by
      obtain ⟨hp, hrest⟩ := List.forall_mem_cons.mp hrest
      rw [insertAll, List.foldlM_cons] at hrun
      obtain ⟨m1, h1, hrun⟩ := Outcome.bind_eq_ok.mp hrun
      exact (he.insert hd p.1 p.2 h1).absent_insertAll hd (absent_bucketSet p.2 hk hp) hrest hrun

theorem bucketCard_insert_le (f : KeyMap) (k : MapKey) (v : Value) (g : BitVec 32) :
    bucketCard (f.insert k v) g ≤ bucketCard f g + 1
      ∧ (g ≠ k.hash ∨ k ∈ f → bucketCard (f.insert k v) g = bucketCard f g) := by
  rw [bucketCard, bucketCard, keys_insert, Finset.filter_insert]
  refine ⟨?_, fun hg => ?_⟩
  · split_ifs
    · exact Finset.card_insert_le ..
    · exact Nat.le_succ _
  · split_ifs with hk
    · rw [Finset.insert_eq_of_mem]
      exact Finset.mem_filter.mpr
        ⟨Finmap.mem_keys.mpr (hg.resolve_left fun hne => hne hk.symm), hk⟩
    · rfl

theorem bucketCard_insertAbstract {g : BitVec 32} (hg : g ≠ h) : ∀ {kvs : List (Value × Value)}
    {f : KeyMap}, bucketCard (insertAbstract f h kvs) g = bucketCard f g
  | [], f => rfl
  | p :: kvs, f => by
      rw [insertAbstract_cons, bucketCard_insertAbstract hg,
        (bucketCard_insert_le f (mapKey h p.1) p.2 g).2 (Or.inl hg)]

/-- The insertion that breaks a limit has no meaning, or it empties the
bucket. -/
theorem insert_overflow {m m' : HMap} {f : KeyMap} {key val : Value} (hr : Represents m f)
    (hb : Bounded f) (hover : ¬ Bounded (f.insert (mapKey h key) val))
    (hm : mapInsert m key h val = .ok m') : ∃ d, d < setDepth ∧ LeadsTo h 0 m'.root d [] := by
  by_cases hbucket : bucketCard (f.insert (mapKey h key) val) h ≤ 255
  · -- the length of the map overflows
    exfalso
    have hcnt : ¬ (f.insert (mapKey h key) val).keys.card < 2 ^ 31 := fun hc =>
      hover ⟨fun g => by
        by_cases hg : g = h
        · rw [hg]; exact hbucket
        · rw [(bucketCard_insert_le f (mapKey h key) val g).2 (Or.inl hg)]; exact hb.1 g, hc⟩
    have hnew : mapKey h key ∉ f := fun hmem => by
      rw [keys_insert, Finset.insert_eq_of_mem (Finmap.mem_keys.mpr hmem)] at hcnt
      exact hcnt hb.2
    exact hcnt (card_of_mapInsert_ok hr hnew hbucket hm)
  · have hle := (bucketCard_insert_le f (mapKey h key) val h).1
    obtain ⟨d, kvs, he, hd, hge, hlen⟩ := bucket_of_card hr (show 1 < bucketCard f h by omega)
    have hlen : kvs.length = 255 := by omega
    have hnew : mapKey h key ∉ f := fun hmem => by
      rw [(bucketCard_insert_le f _ val h).2 (Or.inr hmem)] at hbucket
      exact hbucket (hb.1 h)
    have hnone : lookup valueEq kvs key = none := by
      have hf := hr.find_none.mpr hnew
      rw [he.find] at hf
      exact Outcome.ok.inj hf
    have hempty : (bucketSet kvs key val).1 = [] := by
      rw [bucketSet, position_eq_none_iff.mpr hnone]
      dsimp only
      rw [nodeCreateOnly, List.length_append, hlen, List.length_singleton]
      exact List.take_zero
    exact ⟨d, hd, hempty ▸ he.insert hd key val hm⟩

/-- Past the limits the run has no meaning or one of its keys is lost. -/
theorem insertAll_loses : ∀ {kvs : List (Value × Value)} {m m' : HMap} {f : KeyMap},
    Represents m f → Bounded f → Distinct valueEq kvs → ¬ Bounded (insertAbstract f h kvs) →
    insertAll m h kvs = .ok m' → ∃ p ∈ kvs, nodeFind m'.root h p.1 = .ok none
  | [], m, m', f, _, hb, _, hover, _ => absurd hb hover
  | p :: kvs, m, m', f, hr, hb, hd, hover, hrun => by
      obtain ⟨hp, hd⟩ := List.pairwise_cons.mp hd
      rw [insertAll, List.foldlM_cons] at hrun
      obtain ⟨m1, h1, hrun⟩ := Outcome.bind_eq_ok.mp hrun
      by_cases hb1 : Bounded (f.insert (mapKey h p.1) p.2)
      · obtain ⟨m1', h1', hr1⟩ := mapInsert_ok hr (hb1.1 h) hb1.2
        obtain rfl := Outcome.ok.inj (h1.symm.trans h1')
        obtain ⟨q, hq, hlost⟩ := insertAll_loses hr1 hb1 hd hover hrun
        exact ⟨q, List.mem_cons_of_mem _ hq, hlost⟩
      · obtain ⟨d, hdepth, he⟩ := insert_overflow hr hb hb1 h1
        exact ⟨p, List.mem_cons_self, he.absent_insertAll hdepth
          (fun q hq => absurd hq List.not_mem_nil) hp hrun⟩

/-! ## When no key is lost -/

theorem noneLost_iff_bounded {m : HMap} {f : KeyMap} (hr : Represents m f) (hb : Bounded f)
    {kvs : List (Value × Value)} (hd : Distinct valueEq kvs) (hv : ∀ p ∈ kvs, p.2.type ≠ .inv) :
    NoneLost m f h kvs ↔ Bounded (insertAbstract f h kvs) := by
  constructor
  · rintro ⟨m', hrun, hfound, -, -⟩
    by_contra hover
    obtain ⟨p, hp, hlost⟩ := insertAll_loses hr hb hd hover hrun
    obtain ⟨w, hw, heq⟩ := hfound p hp
    rw [mapGet, hlost] at hw
    cases hw
    exact hv p hp (valueEq_iff.mp heq).1
  · intro hbound
    obtain ⟨m', hrun, hr', hasks⟩ := insertAll_ok hr hbound
    refine ⟨m', hrun, fun p hp => ?_, ?_, fun len hmem => Nat.mod_eq_of_lt (hasks len hmem)⟩
    · obtain ⟨w, hw, heq⟩ := hr'.found h p.1 p.2 (lookup_insertAbstract hd p hp)
      exact ⟨w, by rw [mapGet, hw]; rfl, heq⟩
    · rw [mapLength, mapLength, hr'.count, hr.count, card_insertAbstract hd]
      push_cast
      rfl

/-- **Collisions.** Inserting different keys of one hash into a map loses
none of them exactly when the bucket of the hash ends with at most 255 keys
and the number of keys stays an `int`. -/
theorem noneLost_iff {m : HMap} {f : KeyMap} (hr : Represents m f) (hcnt : mapLength m < 2 ^ 31)
    {kvs : List (Value × Value)} (hd : Distinct valueEq kvs) (hv : ∀ p ∈ kvs, p.2.type ≠ .inv) :
    NoneLost m f h kvs ↔ bucketCard (insertAbstract f h kvs) h ≤ 255
      ∧ (insertAbstract f h kvs).keys.card < 2 ^ 31 := by
  have hb := hr.bounded hcnt
  rw [noneLost_iff_bounded hr hb hd hv]
  refine ⟨fun hbound => ⟨hbound.1 h, hbound.2⟩, fun ⟨hbucket, hcard⟩ => ⟨fun g => ?_, hcard⟩⟩
  by_cases hg : g = h
  · rw [hg]
    exact hbucket
  · rw [bucketCard_insertAbstract hg]
    exact hb.1 g

/-- Two numbers under one hash. -/
theorem noneLost_two :
    NoneLost mapCreateEmpty ∅ 7#32
      [(⟨.number, 1#64⟩, ⟨.nil, 0#64⟩), (⟨.number, 2#64⟩, ⟨.nil, 0#64⟩)] := by
  have hd : Distinct valueEq
      [((⟨.number, 1#64⟩, ⟨.nil, 0#64⟩) : Value × Value), (⟨.number, 2#64⟩, ⟨.nil, 0#64⟩)] := by
    unfold Distinct
    decide
  have hcard := card_insertAbstract (h := 7#32) (f := ∅) hd
  have hle : (insertAbstract ∅ 7#32
      [((⟨.number, 1#64⟩, ⟨.nil, 0#64⟩) : Value × Value), (⟨.number, 2#64⟩, ⟨.nil, 0#64⟩)]).keys.card
      ≤ 2 := by
    rw [hcard, Finmap.keys_empty, Finset.card_empty, Nat.zero_add]
    exact List.countP_le_length
  refine (noneLost_iff represents_empty (by decide) hd (by decide)).mpr ⟨?_, by omega⟩
  exact Nat.le_trans (Finset.card_filter_le ..) (Nat.le_trans hle (by decide))

/-! ## Numbers that collide -/

/-- The high word that makes a number with the low word `lo` hash to zero:
`murmurMix` read backwards. -/
def collidingWord (lo : BitVec 32) : BitVec 32 :=
  let k := (murmurMix 12#32 lo * murmurM) * 0xe59b19bd#32
  (k ^^^ k >>> 24) * 0xe59b19bd#32

/-- The `i`-th of these numbers. -/
def colliding (i : Nat) : Value := ⟨.number, collidingWord (BitVec.ofNat 32 i) ++ BitVec.ofNat 32 i⟩

theorem murmur_colliding : ∀ i : Fin 257, 0 < i.val →
    murmur (valueBytes (colliding i).obj) 4#32 = 0#32 ∧ numIsZero (colliding i).obj = false := by
  decide +kernel

theorem valueEq_colliding {i j : Nat} (hi : 0 < i) (hij : i < j) (hj : j < 257) :
    valueEq (colliding i) (colliding j) = false := by
  have hne : (colliding i).obj ≠ (colliding j).obj := fun heq => by
    have hlow := congrArg (fun x => (x.setWidth 32).toNat) heq
    simp only [colliding, BitVec.setWidth_append, Nat.le_refl, dite_true, BitVec.setWidth_eq,
      BitVec.toNat_ofNat] at hlow
    omega
  have hzero := (murmur_colliding ⟨i, by omega⟩ hi).2
  refine Bool.eq_false_iff.mpr fun heq => ?_
  obtain ⟨-, hobj | ⟨-, hnum⟩⟩ := valueEq_iff.mp heq
  · exact hne hobj
  · simp only [numEq, Bool.and_eq_true, Bool.or_eq_true, beq_iff_eq] at hnum
    rcases hnum.2 with hobj | ⟨hz, -⟩
    · exact hne hobj
    · rw [hzero] at hz
      cases hz

/-- 256 of them, with nil for their values. -/
def collidingPairs : List (Value × Value) :=
  (List.range' 1 256).map fun i => (colliding i, ⟨.nil, 0#64⟩)

theorem distinct_collidingPairs : Distinct valueEq collidingPairs := by
  refine List.pairwise_map.mpr ((List.pairwise_lt_range' ..).imp_of_mem fun hi hj hij => ?_)
  have hi := List.mem_range'_1.mp hi
  have hj := List.mem_range'_1.mp hj
  exact valueEq_colliding (by omega) hij (by omega)

theorem hash_insertAbstract : ∀ {kvs : List (Value × Value)} {f : KeyMap},
    (∀ k ∈ f.keys, k.hash = h) → ∀ k ∈ (insertAbstract f h kvs).keys, k.hash = h
  | [], f, hf => hf
  | p :: kvs, f, hf => by
      rw [insertAbstract_cons]
      refine hash_insertAbstract fun k hk => ?_
      rw [keys_insert, Finset.mem_insert] at hk
      rcases hk with rfl | hk
      · rfl
      · exact hf k hk

/-- In a map of these keys alone all are in one bucket. -/
theorem bucketCard_insertAbstract_empty {kvs : List (Value × Value)}
    (hd : Distinct valueEq kvs) : bucketCard (insertAbstract ∅ h kvs) h = kvs.length := by
  have hall := @hash_insertAbstract h kvs ∅ fun k hk =>
    absurd hk (by rw [Finmap.keys_empty]; exact Finset.notMem_empty k)
  rw [bucketCard, Finset.filter_true_of_mem hall, card_insertAbstract hd, Finmap.keys_empty,
    Finset.card_empty, Nat.zero_add]
  exact List.countP_eq_length.mpr fun p _ => decide_eq_true Finmap.notMem_empty

/-- All 256 share the hash 0, and one of them cannot be found after they are
inserted into an empty map. -/
theorem collisions_lost :
    (∀ p ∈ collidingPairs, hashValue ⟨[], mapCreateEmpty, 0, 0, 0⟩ p.1 = .ok 0#32)
      ∧ Distinct valueEq collidingPairs ∧ (∀ p ∈ collidingPairs, p.2.type ≠ .inv)
      ∧ ¬ NoneLost mapCreateEmpty ∅ 0#32 collidingPairs := by
  have hnil : ∀ p ∈ collidingPairs, p.2.type ≠ .inv := by
    intro p hp
    obtain ⟨i, -, rfl⟩ := List.mem_map.mp hp
    exact fun h => ValType.noConfusion h
  refine ⟨fun p hp => ?_, distinct_collidingPairs, hnil, fun hkept => ?_⟩
  · obtain ⟨i, hi, rfl⟩ := List.mem_map.mp hp
    have hi := List.mem_range'_1.mp hi
    have hhash := (murmur_colliding ⟨i, by omega⟩ (by dsimp only; omega)).1
    exact congrArg Outcome.ok hhash
  · have hbound := (noneLost_iff_bounded represents_empty
      (represents_empty.bounded (by decide)) distinct_collidingPairs hnil).mp hkept
    have hbucket := hbound.1 0#32
    have hlen : collidingPairs.length = 256 := by
      rw [collidingPairs, List.length_map, List.length_range']
    rw [bucketCard_insertAbstract_empty distinct_collidingPairs, hlen] at hbucket
    omega

end Saurus
