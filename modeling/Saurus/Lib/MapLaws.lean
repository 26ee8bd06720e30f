import Saurus.Lib.Map

/-!
# What the map natives do

Each native against the operation on finite maps it is named after. `map`,
`map-length` and `map-get` do it always, and `map-set` wherever the map has
room. The other three count a slot wrong: `map-insert` looks for the value
among the keys, `map-remove` takes its function for the map, and `map-has`
takes the key for it.
-/

namespace Saurus

open Basis

/-! ## Calls -/

/-- A call of one of the natives with its arguments. -/
inductive MapCall where
  | map (pairs : List (Value × Value))
  | length (m : Value)
  | get (m key : Value)
  | set (m key val : Value)
  | insert (m key val : Value)
  | remove (m key : Value)
  | has (m key : Value)

/-- The key a value is, with the hash it has in the world. -/
def keyOf (w : World) (k : Value) : MapKey := mapKey ((hashValue w k).toOption.getD 0#32) k

theorem keyOf_eq {w : World} {k : Value} {hash : BitVec 32} (h : hashValue w k = .ok hash) :
    keyOf w k = mapKey hash k := by
  rw [keyOf, h]
  rfl

/-- The value is a map that holds `f`. -/
structure HoldsMap (w : World) (v : Value) (f : KeyMap) : Prop where
  type : v.type = .map
  object : ∃ m, mapObject w v = .ok m ∧ Represents m f

/-- The finite map has room for the pair. -/
def HasRoom (f : KeyMap) (k : MapKey) (val : Value) : Prop :=
  bucketCard (f.insert k val) k.hash ≤ 255 ∧ (f.insert k val).keys.card < 2 ^ 31

namespace MapCall

def native (h : Host) : MapCall → CFunction
  | .map _ => libMap
  | .length _ => libMapLength h
  | .get _ _ => libMapGet
  | .set _ _ _ => libMapSet
  | .insert _ _ _ => libMapInsert
  | .remove _ _ => libMapRemove
  | .has _ _ => libMapHas h

def args : MapCall → List Value
  | .map pairs => pairs.flatMap fun p => [p.1, p.2]
  | .length m => [m]
  | .get m key => [m, key]
  | .set m key val => [m, key, val]
  | .insert m key val => [m, key, val]
  | .remove m key => [m, key]
  | .has m key => [m, key]

/-- The map it is called on. -/
def subject : MapCall → Option Value
  | .map _ => none
  | .length m | .get m _ | .set m _ _ | .insert m _ _ | .remove m _ | .has m _ => some m

/-- The arguments are well typed: the map is one that holds `f`, its length
an `int`, and everything else can be hashed. -/
structure WellTyped (w : World) (f : KeyMap) (c : MapCall) : Prop where
  subject : ∀ m, c.subject = some m → HoldsMap w m f
  count : f.keys.card < 2 ^ 31
  named : ∀ k x, f.lookup k = some x → x.type ≠ .inv
  hashed : ∀ v ∈ c.args, ∃ hash, hashValue w v = .ok hash

/-- The call is about to be made, and there is memory for its result. The
slot below the arguments holds a pointer to code, where no object is. -/
structure Ready (s : Vm) (c : MapCall) : Prop where
  called : s.Called c.args
  code : ∀ o, s.world.object (s.stack (s.stackTop - (c.args.length + 1))).addr ≠ .ok o
  room : s.stackTop < stackSize
  memory : s.world.objects.length + 256 < 2 ^ 64

/-- The call does what it is to do with the finite map `f`. -/
def Meets (h : Host) (s : Vm) (f : KeyMap) (c : MapCall) : Prop :=
  let gives := Vm.Gives (c.native h) s c.args.length
  let raises := Vm.CallRaises (c.native h) s c.args.length
  match c with
  | .map pairs => gives fun w v => ∃ f', HoldsMap w v f' ∧ ∀ k, f'.lookup k
      = (pairs.reverse.find? fun p => decide (keyOf s.world p.1 = k)).map (·.2)
  | .length _ => gives fun _ v => v = ⟨.number, h.ofInt f.keys.card⟩
  | .get _ key => gives fun _ v =>
      match f.lookup (keyOf s.world key) with
      | some x => valueEq x v = true
      | none => v.type = .nil
  | .set _ key val => gives fun w v => HoldsMap w v (f.insert (keyOf s.world key) val)
  | .insert _ key val =>
      if keyOf s.world key ∈ f then raises
      else gives fun w v => HoldsMap w v (f.insert (keyOf s.world key) val)
  | .remove _ key =>
      if keyOf s.world key ∈ f then gives fun w v => HoldsMap w v (f.erase (keyOf s.world key))
      else raises
  | .has _ key => gives fun _ v =>
      v.type = .boolean ∧ objB v = decide (keyOf s.world key ∈ f)

/-- When it does. -/
def Sound (w : World) (f : KeyMap) : MapCall → Prop
  | .map _ | .length _ | .get _ _ => True
  | .set _ key val => HasRoom f (keyOf w key) val
  | .insert _ key val =>
      (keyOf w val ∈ f ↔ keyOf w key ∈ f) ∧ (keyOf w key ∉ f → HasRoom f (keyOf w key) val)
  | .remove _ _ => False
  | .has _ key => ∃ m hash x, mapObject w key = .ok m ∧ hashValue w key = .ok hash
      ∧ mapGet m key hash = .ok x ∧ (x.type ≠ .inv ↔ keyOf w key ∈ f)

end MapCall

/-! ## Answers of a map -/

section Maps

variable {f : KeyMap} {m : HMap} {hash : BitVec 32} {key : Value}

/-- `map_get` tells whether there is a value, and which. -/
theorem Represents.get (hr : Represents m f) (hnamed : ∀ k x, f.lookup k = some x → x.type ≠ .inv)
    (hash : BitVec 32) (key : Value) : ∃ x, mapGet m key hash = .ok x
      ∧ (x.type ≠ .inv ↔ mapKey hash key ∈ f)
      ∧ ∀ y, f.lookup (mapKey hash key) = some y → valueEq y x = true := by
  cases hl : f.lookup (mapKey hash key) with
  | none =>
      refine ⟨⟨.inv, 0#64⟩, by rw [mapGet, hr.absent hash key hl]; rfl, ?_, fun y hy => by cases hy⟩
      simp [Finmap.lookup_eq_none.mp hl]
  | some y =>
      obtain ⟨x, hx, heq⟩ := hr.found hash key y hl
      refine ⟨x, by rw [mapGet, hx]; rfl, ?_, fun z hz => Option.some.inj hz ▸ heq⟩
      refine iff_of_true ?_ (Finmap.mem_iff.mpr ⟨y, hl⟩)
      rw [← (valueEq_iff.mp heq).1]
      exact hnamed _ y hl

theorem hasRoom_iff_bounded (hb : Bounded f) (key val : Value) :
    HasRoom f (mapKey hash key) val ↔ Bounded (f.insert (mapKey hash key) val) := by
  refine ⟨fun ⟨hbucket, hcard⟩ => ⟨fun g => ?_, hcard⟩, fun h => ⟨h.1 _, h.2⟩⟩
  by_cases hg : g = hash
  · rw [hg]
    exact hbucket
  · rw [(bucketCard_insert_le f (mapKey hash key) val g).2 (Or.inl hg)]
    exact hb.1 g

/-- A key that is there has room. -/
theorem hasRoom_of_mem (hb : Bounded f) {k : MapKey} (hk : k ∈ f) (val : Value) :
    HasRoom f k val := by
  refine ⟨?_, ?_⟩
  · rw [(bucketCard_insert_le f k val _).2 (Or.inr hk)]
    exact hb.1 _
  · rw [keys_insert, Finset.insert_eq_of_mem (Finmap.mem_keys.mpr hk)]
    exact hb.2

/-- Without room the pair is not there afterwards. -/
theorem not_represents_overflow (hr : Represents m f) (hb : Bounded f) {val : Value}
    (hroom : ¬ HasRoom f (mapKey hash key) val) {m' : HMap}
    (hins : mapInsert m key hash val = .ok m') :
    ¬ Represents m' (f.insert (mapKey hash key) val) := by
  intro hr'
  obtain ⟨d, -, he⟩ :=
    insert_overflow hr hb (fun h => hroom ((hasRoom_iff_bounded hb ..).mpr h)) hins
  obtain ⟨x, hx, -⟩ := hr'.found hash key val (Finmap.lookup_insert ..)
  rw [he.find] at hx
  cases hx

end Maps

/-! ## One native after the other -/

namespace MapCall

section Natives

variable {h : Host} {s : Vm} {f : KeyMap}

/-- The map of a call. -/
theorem WellTyped.map {c : MapCall} (ht : c.WellTyped s.world f) {m : Value}
    (hm : c.subject = some m) :
    ∃ hm, mapObject s.world m = .ok hm ∧ Represents hm f ∧ Bounded f := by
  obtain ⟨-, hm, hobj, hr⟩ := ht.subject m hm
  refine ⟨hm, hobj, hr, hr.bounded ?_⟩
  rw [hr.count]
  exact_mod_cast ht.count

theorem meets_length {m : Value} (hs : (length m).Ready s) (ht : (length m).WellTyped s.world f) :
    (length m).Meets h s f := by
  obtain ⟨hm, hobj, hr, -⟩ := ht.map rfl
  have hstk : s.stk 1 = .ok m := hs.called.stk ⟨Nat.le_refl _, Nat.le_refl _⟩ rfl
  unfold Meets
  dsimp only
  refine Vm.gives_of_push (w := s.world) (v := ⟨.number, h.ofInt hm.cnt⟩) Nat.one_ne_zero
    hs.called.room ?_ (fun _ _ ho => ho) ?_
  · change libMapLength h s 1 = _
    rw [libMapLength, show s.suCheckArguments 1 1 [.map] = .ok () from Vm.fits_exact s _ _,
      Outcome.ok_bind, Vm.suMapLength, hstk, Outcome.ok_bind, hobj, Outcome.ok_bind,
      Outcome.pure_eq, Outcome.ok_bind, Vm.suPushInteger, Vm.pushValue_ok hs.room]
    rfl
  · exact congrArg (fun n => Value.mk .number (h.ofInt n)) hr.count

theorem meets_get {m key : Value} (hs : (get m key).Ready s)
    (ht : (get m key).WellTyped s.world f) : (get m key).Meets h s f := by
  obtain ⟨hm, hobj, hr, -⟩ := ht.map rfl
  obtain ⟨hash, hhash⟩ := ht.hashed key (by simp [args])
  obtain ⟨x, hx, hmem, heq⟩ := hr.get ht.named hash key
  have hm2 : s.stk 2 = .ok m := hs.called.stk ⟨(by decide : 1 ≤ 2), Nat.le_refl _⟩ rfl
  have hk1 : s.stk 1 = .ok key := hs.called.stk ⟨Nat.le_refl 1, (by decide : 1 ≤ 2)⟩ rfl
  have hf : libMapGet s 2 = if x.type = .inv then .ok (s, 0)
      else s.pushValue x >>= fun s => pure (s, 1) := by
    rw [libMapGet, show s.suCheckArguments 2 2 [.map, .nil] = .ok () from Vm.fits_exact s _ _,
      Outcome.ok_bind, Vm.suMapGet, hk1, Outcome.ok_bind, hhash, Outcome.ok_bind, hm2,
      Outcome.ok_bind, hobj, Outcome.ok_bind, hx, Outcome.ok_bind]
    rfl
  unfold Meets
  dsimp only
  by_cases hinv : x.type = .inv
  · have hnone : f.lookup (mapKey hash key) = none := by
      rw [Finmap.lookup_eq_none]
      exact fun hk => hmem.mpr hk hinv
    refine Vm.gives_nil hs.called.room ?_ fun obj => ?_
    · change libMapGet s 2 = _
      rw [hf, if_pos hinv]
    · rw [keyOf_eq hhash, hnone]
  · obtain ⟨y, hy⟩ := Finmap.mem_iff.mp (hmem.mp hinv)
    refine Vm.gives_of_push (w := s.world) (v := x) Nat.one_ne_zero hs.called.room ?_
      (fun _ _ ho => ho) ?_
    · change libMapGet s 2 = _
      rw [hf, if_neg hinv, Vm.pushValue_ok hs.room]
      rfl
    · rw [keyOf_eq hhash, hy]
      exact heq y hy

theorem stk_three {x y z : Value} (hs : s.Called [x, y, z]) :
    s.stk 3 = .ok x ∧ s.stk 2 = .ok y ∧ s.stk 1 = .ok z :=
  ⟨hs.stk ⟨by decide, Nat.le_refl _⟩ rfl, hs.stk ⟨by decide, by simp⟩ rfl,
    hs.stk ⟨Nat.le_refl _, by simp⟩ rfl⟩

/-- The end of `map-set` and `map-insert`. -/
theorem suMapInsert_eq {m key val : Value} {hm m' : HMap} {hash : BitVec 32}
    (hstk : s.stk 3 = .ok m ∧ s.stk 2 = .ok key ∧ s.stk 1 = .ok val)
    (hhash : hashValue s.world key = .ok hash) (hobj : mapObject s.world m = .ok hm)
    (hroom : s.stackTop < stackSize) (hmem : s.world.objects.length + 1 < 2 ^ 64)
    (hins : mapInsert hm key hash val = .ok m') :
    ∃ w v, s.suMapInsert 3 = .ok { s with
        world := w
        stack := Function.update s.stack s.stackTop v
        stackTop := s.stackTop + 1 }
      ∧ s.world.Extends w ∧ v.type = .map ∧ mapObject w v = .ok m' := by
  obtain ⟨w, v, n, hrun, htype, hv, hadds, -⟩ := insertMap_ok hobj hmem hins
  refine ⟨w, v, ?_, hadds.objects, htype, hv⟩
  rw [Vm.suMapInsert, hstk.2.1, Outcome.ok_bind, hhash, Outcome.ok_bind, hstk.1, Outcome.ok_bind,
    hstk.2.2, Outcome.ok_bind, hrun, Outcome.ok_bind]
  exact Vm.pushValue_ok (s := { s with world := w }) hroom v

/-- An insertion that is to be made is made exactly when there is room. -/
theorem gives_insert_iff {native : CFunction} {m key val : Value} {hash : BitVec 32} {hm : HMap}
    (hstk : s.stk 3 = .ok m ∧ s.stk 2 = .ok key ∧ s.stk 1 = .ok val) (hlen : 3 + 1 ≤ s.stackTop)
    (hhash : hashValue s.world key = .ok hash) (hobj : mapObject s.world m = .ok hm)
    (hr : Represents hm f) (hb : Bounded f) (hroom : s.stackTop < stackSize)
    (hmem : s.world.objects.length + 256 < 2 ^ 64)
    (hnative : native s 3 = do
      let s ← s.suMapInsert 3
      pure (s, 1)) :
    Vm.Gives native s 3 (fun w v => HoldsMap w v (f.insert (mapKey hash key) val))
      ↔ HasRoom f (mapKey hash key) val := by
  constructor
  · intro hgives
    by_contra hno
    obtain ⟨s', r, hok⟩ := hgives.ok
    rw [hnative] at hok
    obtain ⟨s1, hins, -⟩ := Outcome.bind_eq_ok.mp hok
    rw [Vm.suMapInsert, hstk.2.1, Outcome.ok_bind, hhash, Outcome.ok_bind, hstk.1,
      Outcome.ok_bind, hstk.2.2, Outcome.ok_bind] at hins
    obtain ⟨⟨w, v⟩, hins, -⟩ := Outcome.bind_eq_ok.mp hins
    obtain ⟨m', hm'⟩ := mapInsert_of_insertMap hobj hins
    obtain ⟨w, v, hrun, hw, -, hv⟩ :=
      suMapInsert_eq hstk hhash hobj hroom (Nat.lt_of_le_of_lt (by omega) hmem) hm'
    have hholds :=
      hgives.pushed Nat.one_ne_zero hlen (by rw [hnative, hrun]; rfl) (Vm.pushed_push v hw)
    obtain ⟨-, m2, hm2, hr2⟩ := hholds
    obtain rfl := Outcome.ok.inj (hv.symm.trans hm2)
    exact not_represents_overflow hr hb hno hm' hr2
  · intro hyes
    have hbound := (hasRoom_iff_bounded hb key val).mp hyes
    obtain ⟨m', hm', hr'⟩ := mapInsert_ok hr (hbound.1 hash) hbound.2
    obtain ⟨w, v, hrun, hw, htype, hv⟩ :=
      suMapInsert_eq hstk hhash hobj hroom (Nat.lt_of_le_of_lt (by omega) hmem) hm'
    exact Vm.gives_of_push (w := w) (v := v) Nat.one_ne_zero hlen (by rw [hnative, hrun]; rfl) hw
      ⟨htype, m', hv, hr'⟩

theorem meets_set_iff {m key val : Value} (hs : (set m key val).Ready s)
    (ht : (set m key val).WellTyped s.world f) :
    (set m key val).Meets h s f ↔ (set m key val).Sound s.world f := by
  obtain ⟨hm, hobj, hr, hb⟩ := ht.map rfl
  obtain ⟨hash, hhash⟩ := ht.hashed key (by simp [args])
  simp only [Meets, Sound, keyOf_eq hhash]
  refine gives_insert_iff (stk_three hs.called)
    hs.called.room hhash hobj hr hb hs.room hs.memory ?_
  change libMapSet s 3 = _
  rw [libMapSet, show s.suCheckArguments 3 3 [.map, .nil, .nil] = .ok () from Vm.fits_exact s _ _,
    Outcome.ok_bind]

theorem suMapHas_eq {m key : Value} {hm : HMap} {hash : BitVec 32} {i : Nat} {x : Value}
    (hm1 : s.stk i = .ok m) (hk : s.stk 1 = .ok key) (hhash : hashValue s.world key = .ok hash)
    (hobj : mapObject s.world m = .ok hm) (hx : mapGet hm key hash = .ok x) :
    s.suMapHas i = .ok (decide (x.type ≠ .inv)) := by
  rw [Vm.suMapHas, hk, Outcome.ok_bind, hhash, Outcome.ok_bind, hm1, Outcome.ok_bind, hobj,
    Outcome.ok_bind, hx]
  rfl

theorem meets_insert_iff {m key val : Value} (hs : (insert m key val).Ready s)
    (ht : (insert m key val).WellTyped s.world f) :
    (insert m key val).Meets h s f ↔ (insert m key val).Sound s.world f := by
  obtain ⟨hm, hobj, hr, hb⟩ := ht.map rfl
  obtain ⟨hash, hhash⟩ := ht.hashed key (by simp [args])
  obtain ⟨vhash, hvhash⟩ := ht.hashed val (by simp [args])
  obtain ⟨x, hx, hmem, -⟩ := hr.get ht.named vhash val
  have hstk := stk_three hs.called
  have hroom : 3 + 1 ≤ s.stackTop := hs.called.room
  have hf : libMapInsert s 3
      = Outcome.check (!decide (mapKey vhash val ∈ f)) "Duplicated key in map!" >>= fun _ =>
        s.suMapInsert 3 >>= fun s => pure (s, 1) := by
    rw [libMapInsert, show s.suCheckArguments 3 3 [.map, .nil, .nil] = .ok () from
      Vm.fits_exact s _ _, Outcome.ok_bind, suMapHas_eq hstk.1 hstk.2.2 hvhash hobj hx,
      Outcome.ok_bind, decide_eq_decide.mpr hmem]
  simp only [Meets, Sound, keyOf_eq hhash, keyOf_eq hvhash]
  by_cases hval : mapKey vhash val ∈ f
  · -- the value is a key of the map: the insertion is refused
    rw [decide_eq_true hval] at hf
    have hraises : Vm.CallRaises libMapInsert s 3 :=
      Vm.callRaises_of hroom ⟨_, by rw [hf]; rfl⟩
    by_cases hkey : mapKey hash key ∈ f
    · rw [if_pos hkey]
      exact iff_of_true hraises ⟨iff_of_true hval hkey, fun hno => absurd hkey hno⟩
    · rw [if_neg hkey]
      refine iff_of_false (fun hgives => ?_) fun hsound => hkey (hsound.1.mp hval)
      obtain ⟨s', r, hok⟩ := hgives.ok
      change libMapInsert s 3 = _ at hok
      rw [hf] at hok
      cases hok
  · rw [decide_eq_false hval] at hf
    by_cases hkey : mapKey hash key ∈ f
    · -- the key is there and the insertion is made all the same
      rw [if_pos hkey]
      refine iff_of_false (fun hraises => ?_) fun hsound => hval (hsound.1.mpr hkey)
      have hbound := (hasRoom_iff_bounded hb key val).mp (hasRoom_of_mem hb hkey val)
      obtain ⟨m', hm', -⟩ := mapInsert_ok hr (hbound.1 hash) hbound.2
      obtain ⟨w, v, hrun, -⟩ := suMapInsert_eq hstk hhash hobj hs.room
        (Nat.lt_of_le_of_lt (Nat.add_le_add_left (by decide) _) hs.memory) hm'
      exact hraises.raises hroom ⟨_, 1, by
        change libMapInsert s 3 = _
        rw [hf, hrun]
        rfl, Or.inr (Nat.le_add_left ..)⟩
    · rw [if_neg hkey]
      refine (gives_insert_iff hstk hroom hhash hobj hr hb hs.room hs.memory ?_).trans
        ⟨fun hyes => ⟨iff_of_false hval hkey, fun _ => hyes⟩, fun hsound => hsound.2 hkey⟩
      exact hf

/-- The slot of the function holds no map. -/
theorem suMapHas_code {c : MapCall} (hs : c.Ready s) {key : Value} {hash : BitVec 32}
    (hk : s.stk 1 = .ok key) (hhash : hashValue s.world key = .ok hash) :
    s.suMapHas (c.args.length + 1) = .fault := by
  have hnone : s.world.object (s.stack (s.stackTop - (c.args.length + 1))).addr = .fault := by
    have hcode := hs.code
    unfold World.object at hcode ⊢
    split
    · rfl
    · rename_i h0
      rw [if_neg h0] at hcode
      cases ho : s.world.objects[(s.stack (s.stackTop - (c.args.length + 1))).addr - 1]? with
      | none => rfl
      | some o => exact absurd (by rw [ho]; rfl) (hcode o)
  rw [Vm.suMapHas, hk, Outcome.ok_bind, hhash, Outcome.ok_bind, Vm.stk,
    decide_eq_true hs.called.room, Outcome.require_true, Outcome.ok_bind, Outcome.pure_eq,
    Outcome.ok_bind, mapObject, hnone]
  rfl

theorem not_meets_remove {m key : Value} (hs : (remove m key).Ready s)
    (ht : (remove m key).WellTyped s.world f) : ¬ (remove m key).Meets h s f := by
  obtain ⟨hash, hhash⟩ := ht.hashed key (by simp [args])
  have hk : s.stk 1 = .ok key := hs.called.stk ⟨Nat.le_refl 1, (by decide : 1 ≤ 2)⟩ rfl
  have hhas : s.suMapHas ((remove m key).args.length + 1) = .fault := suMapHas_code hs hk hhash
  have hf : libMapRemove s 2 = .fault := by
    rw [libMapRemove, show s.suCheckArguments 2 2 [.map, .nil] = .ok () from Vm.fits_exact s _ _,
      Outcome.ok_bind]
    exact congrArg (· >>= _) hhas
  simp only [Meets, keyOf_eq hhash]
  split_ifs
  · exact (Vm.not_gives_of_fault hs.called.room hf).1
  · exact (Vm.not_gives_of_fault (P := fun _ _ => True) hs.called.room hf).2

theorem meets_has_iff {m key : Value} (hs : (has m key).Ready s)
    (ht : (has m key).WellTyped s.world f) :
    (has m key).Meets h s f ↔ (has m key).Sound s.world f := by
  obtain ⟨hash, hhash⟩ := ht.hashed key (by simp [args])
  have hroom : 2 + 1 ≤ s.stackTop := hs.called.room
  have hk : s.stk 1 = .ok key := hs.called.stk ⟨Nat.le_refl 1, (by decide : 1 ≤ 2)⟩ rfl
  have hcheck : s.suCheckArguments 2 2 [.map, .nil] = .ok () := Vm.fits_exact s _ _
  have hpush : ∀ b, s.suMapHas 1 = .ok b → ∃ obj, libMapHas h s 2 = .ok ({ s with
      world := (drawJunk h.junk s.world).1
      stack := Function.update s.stack s.stackTop ⟨.boolean, setObjB obj b⟩
      stackTop := s.stackTop + 1 }, 1) := by
    intro b hb
    refine ⟨(drawJunk h.junk s.world).2, ?_⟩
    rw [libMapHas, hcheck, Outcome.ok_bind, hb, Outcome.ok_bind, Vm.suPushBoolean]
    dsimp only
    rw [Vm.pushValue_ok (s := { s with world := (drawJunk h.junk s.world).1 }) hs.room]
    rfl
  simp only [Meets, Sound, keyOf_eq hhash]
  constructor
  · intro hgives
    obtain ⟨s', r, hok⟩ := hgives.ok
    change libMapHas h s 2 = _ at hok
    rw [libMapHas, hcheck, Outcome.ok_bind] at hok
    obtain ⟨b, hb, -⟩ := Outcome.bind_eq_ok.mp hok
    obtain ⟨obj, hrun⟩ := hpush b hb
    obtain ⟨-, hvalue⟩ := hgives.pushed Nat.one_ne_zero hroom hrun
      (Vm.pushed_push _ fun _ _ ho => ho)
    rw [objB_setObjB] at hvalue
    rw [Vm.suMapHas, hk, Outcome.ok_bind, hhash, Outcome.ok_bind, Outcome.ok_bind] at hb
    obtain ⟨m', hm', hb⟩ := Outcome.bind_eq_ok.mp hb
    obtain ⟨x, hx, hb⟩ := Outcome.bind_eq_ok.mp hb
    refine ⟨m', hash, x, hm', hhash, hx, ?_⟩
    have hdec := (Outcome.ok.inj hb).trans hvalue
    exact decide_eq_decide.mp hdec
  · rintro ⟨m', hash', x, hm', hhash', hx, hiff⟩
    obtain rfl := Outcome.ok.inj (hhash.symm.trans hhash')
    obtain ⟨obj, hrun⟩ := hpush _ (suMapHas_eq hk hk hhash hm' hx)
    refine Vm.gives_of_push Nat.one_ne_zero hroom hrun (fun _ _ ho => ho) ⟨rfl, ?_⟩
    rw [objB_setObjB]
    exact decide_eq_decide.mpr hiff

/-! ## Building a map -/

/-- The pairs put into a finite map one after the other. -/
def putAll (w : World) (f : KeyMap) (pairs : List (Value × Value)) : KeyMap :=
  pairs.foldl (fun f p => f.insert (keyOf w p.1) p.2) f

/-- The last pair of a key wins. -/
theorem lookup_putAll (w : World) (k : MapKey) : ∀ (pairs : List (Value × Value)) (f : KeyMap),
    (putAll w f pairs).lookup k
      = ((pairs.reverse.find? fun p => decide (keyOf w p.1 = k)).map (·.2)).or (f.lookup k)
  | [], f => rfl
  | p :: pairs, f => by
      rw [putAll, List.foldl_cons, ← putAll, lookup_putAll w k pairs, List.reverse_cons,
        List.find?_append, List.find?_singleton]
      by_cases hk : keyOf w p.1 = k
      · subst hk
        rw [Finmap.lookup_insert, decide_eq_true rfl]
        cases pairs.reverse.find? fun q => decide (keyOf w q.1 = keyOf w p.1) <;> rfl
      · rw [Finmap.lookup_insert_of_ne _ (Ne.symm hk), decide_eq_false hk]
        cases pairs.reverse.find? fun q => decide (keyOf w q.1 = k) <;> rfl

theorem card_insert_le (f : KeyMap) (k : MapKey) (v : Value) :
    (f.insert k v).keys.card ≤ f.keys.card + 1 := by
  rw [keys_insert]
  exact Finset.card_insert_le ..

theorem bounded_of_card {f : KeyMap} (hcard : f.keys.card ≤ 255) : Bounded f :=
  ⟨fun _ => Nat.le_trans (Finset.card_filter_le ..) hcard, by omega⟩

/-- The loop of `su_map` over no more pairs than a bucket holds. -/
theorem suMapLoop_ok {w0 : World} : ∀ {pairs : List (Value × Value)} {w : World} {v : Value}
    {f : KeyMap}, w0.Extends w → HoldsMap w v f → f.keys.card + pairs.length ≤ 255 →
    w.objects.length + pairs.length < 2 ^ 64 →
    (∀ p ∈ pairs, ∃ hash, hashValue w0 p.1 = .ok hash) →
    ∃ w' v', suMapLoop w v (pairs.flatMap fun p => [p.1, p.2]) = .ok (w', v')
      ∧ w0.Extends w' ∧ HoldsMap w' v' (putAll w0 f pairs)
  | [], w, v, f, hw, hv, _, _, _ => ⟨w, v, rfl, hw, hv⟩
  | p :: pairs, w, v, f, hw, hv, hcard, hmem, hhash => by
      obtain ⟨⟨hash, hp⟩, hhash⟩ := List.forall_mem_cons.mp hhash
      obtain ⟨-, hm, hobj, hr⟩ := hv
      rw [List.length_cons] at hcard hmem
      have hle := card_insert_le f (mapKey hash p.1) p.2
      have hbound : Bounded (f.insert (mapKey hash p.1) p.2) := bounded_of_card (by omega)
      obtain ⟨m', hins, hr'⟩ := mapInsert_ok hr (hbound.1 hash) hbound.2
      obtain ⟨w1, v1, n, hrun, htype, hv1, hadds, hn⟩ := insertMap_ok hobj (by omega) hins
      have hlen := hadds.length
      obtain ⟨w', v', hloop, hw', hholds⟩ := suMapLoop_ok (hw.trans hadds.objects)
        ⟨htype, m', hv1, hr'⟩ (by omega) (by omega) hhash
      refine ⟨w', v', ?_, hw', ?_⟩
      · rw [List.flatMap_cons, List.cons_append, List.cons_append, List.nil_append, suMapLoop,
          hashValue_extends hw hp, Outcome.ok_bind, hrun]
        exact hloop
      · rw [putAll, List.foldl_cons, keyOf_eq hp]
        exact hholds

theorem length_pairs (pairs : List (Value × Value)) :
    (pairs.flatMap fun p => [p.1, p.2]).length = 2 * pairs.length := by
  induction pairs with
  | nil => rfl
  | cons p pairs ih =>
      rw [List.flatMap_cons, List.length_append, ih, List.length_cons]
      simp only [List.length_cons, List.length_nil]
      omega

/-- As many pairs as there is room for on the stack are never too many. -/
theorem meets_map {pairs : List (Value × Value)} (hs : (map pairs).Ready s)
    (ht : (map pairs).WellTyped s.world f) : (map pairs).Meets h s f := by
  have hroom := hs.called.room
  have hlen : (map pairs).args.length = 2 * pairs.length := length_pairs pairs
  have htop := hs.room
  have hmem := hs.memory
  rw [hlen] at hroom
  unfold stackSize at htop
  obtain ⟨w1, halloc, hadds, hobj⟩ := alloc_map (w := s.world) mapCreateEmpty (by omega)
  have hw1 := hadds.length
  obtain ⟨w', v', hloop, hw', hholds⟩ := suMapLoop_ok (f := ∅) hadds.objects
    ⟨rfl, mapCreateEmpty, hobj, represents_empty⟩
    (by rw [Finmap.keys_empty, Finset.card_empty]; omega) (by omega) fun p hp =>
      ht.hashed p.1 (List.mem_flatMap.mpr ⟨p, hp, List.mem_cons_self⟩)
  unfold Meets
  dsimp only
  refine Vm.gives_of_push (w := w') (v := v') Nat.one_ne_zero hs.called.room ?_ hw'
    ⟨_, hholds, fun k => ?_⟩
  · change libMap s (map pairs).args.length = _
    have hargs : s.window (s.stackTop - (map pairs).args.length) (map pairs).args.length
        = pairs.flatMap fun p => [p.1, p.2] := hs.called.args
    rw [libMap, Vm.suMap, halloc, Outcome.ok_bind]
    dsimp only
    rw [hargs, hloop, hlen, decide_eq_true (Nat.mul_mod_right 2 _), decide_eq_true (by omega)]
    simp only [Outcome.check_true, Outcome.require_true, Outcome.ok_bind]
    rw [Vm.pushValue_ok (s := { s with world := w' }) hs.room]
    rfl
  · rw [lookup_putAll, Finmap.lookup_empty, Option.or_none]

end Natives

end MapCall

/-! ## All of them -/

/-- **The map natives.** A well-typed call does what it is to do on a finite
map exactly when it is sound. -/
theorem map_natives_iff {h : Host} {s : Vm} {f : KeyMap} {c : MapCall} (hs : c.Ready s)
    (ht : c.WellTyped s.world f) : c.Meets h s f ↔ c.Sound s.world f := by
  cases c with
  | map pairs => exact iff_of_true (MapCall.meets_map hs ht) trivial
  | length m => exact iff_of_true (MapCall.meets_length hs ht) trivial
  | get m key => exact iff_of_true (MapCall.meets_get hs ht) trivial
  | set m key val => exact MapCall.meets_set_iff hs ht
  | insert m key val => exact MapCall.meets_insert_iff hs ht
  | remove m key => exact iff_of_false (MapCall.not_meets_remove hs ht) fun h => h
  | has m key => exact MapCall.meets_has_iff hs ht

/-- The number one. -/
def oneValue : Value := ⟨.number, 0x3ff0000000000000#64⟩

/-- The map from one to nil. -/
def oneMap : HMap :=
  ⟨1, .leaf (murmur (valueBytes oneValue.obj) 4#32) oneValue ⟨.nil, 0#64⟩⟩

def oneKey : MapKey := mapKey (murmur (valueBytes oneValue.obj) 4#32) oneValue

def oneAbstract : KeyMap := (∅ : KeyMap).insert oneKey ⟨.nil, 0#64⟩

theorem card_oneAbstract : oneAbstract.keys.card ≤ 1 := MapCall.card_insert_le ∅ oneKey _

theorem represents_oneMap : Represents oneMap oneAbstract := by
  have hb : Bounded oneAbstract :=
    MapCall.bounded_of_card (Nat.le_trans card_oneAbstract (by decide))
  obtain ⟨m', hm', hr'⟩ := mapInsert_ok represents_empty (hb.1 _) hb.2
  obtain rfl : oneMap = m' := Outcome.ok.inj hm'
  exact hr'

/-- A native at the bottom of the stack and its arguments above it, in a
world whose only object is `oneMap`. -/
def oneState (args : List Value) : Vm where
  world := ⟨[.map oneMap], mapCreateEmpty, 0, 0, 0⟩
  stack := fun i => (⟨.nativefunc, 0x401000#64⟩ :: args).getD i ⟨.nil, 0#64⟩
  stackTop := args.length + 1
  frames := fun _ => ⟨⟨0, .mk [] [] [] [] [] [], [], []⟩, 0, 0⟩
  frameTop := 0
  func := ⟨0, .mk [] [] [] [] [] [], [], []⟩
  pc := 0

theorem oneState_ready {c : MapCall} (hlen : c.args.length < 100)
    (hnamed : ∀ v ∈ c.args, v.type ≠ .inv) : c.Ready (oneState c.args) where
  called := Vm.called_of_stack rfl rfl hnamed
  code := fun o ho => by
    have hzero : c.args.length + 1 - (c.args.length + 1) = 0 := Nat.sub_self _
    simp only [oneState, hzero, List.getD_cons_zero] at ho
    cases ho
  room := by
    change c.args.length + 1 < 512
    omega
  memory := by
    change 1 + 256 < 2 ^ 64
    decide

/-- The arguments have hashes. -/
theorem hashed_of_all {w : World} {vs : List Value}
    (h : (vs.all fun v => (hashValue w v).toOption.isSome) = true) :
    ∀ v ∈ vs, ∃ hash, hashValue w v = .ok hash := by
  intro v hv
  obtain ⟨hash, hhash⟩ := Option.isSome_iff_exists.mp (List.all_eq_true.mp h v hv)
  exact ⟨hash, Outcome.toOption_eq_some.mp hhash⟩

theorem oneState_wellTyped {c : MapCall} (hm : ∀ m, c.subject = some m → m = ⟨.map, 1#64⟩)
    (hhash : ∀ v ∈ c.args, ∃ hash, hashValue (oneState c.args).world v = .ok hash) :
    c.WellTyped (oneState c.args).world oneAbstract where
  subject := fun m hsub => by
    rw [hm m hsub]
    exact ⟨rfl, oneMap, rfl, represents_oneMap⟩
  count := Nat.lt_of_le_of_lt card_oneAbstract (by decide)
  named := fun k x hx => by
    by_cases hk : k = oneKey
    · rw [hk, oneAbstract, Finmap.lookup_insert] at hx
      rw [← Option.some.inj hx]
      exact fun h => ValType.noConfusion h
    · rw [oneAbstract, Finmap.lookup_insert_of_ne _ hk, Finmap.lookup_empty] at hx
      cases hx
  hashed := hhash

/-- `(map-set {1 nil} 1 true)` puts the new value in. -/
theorem map_natives_set :
    (MapCall.set ⟨.map, 1#64⟩ oneValue ⟨.boolean, 1#64⟩).Meets idleHost
      (oneState [⟨.map, 1#64⟩, oneValue, ⟨.boolean, 1#64⟩]) oneAbstract := by
  let c := MapCall.set ⟨.map, 1#64⟩ oneValue ⟨.boolean, 1#64⟩
  refine (map_natives_iff (c := c) (oneState_ready (c := c) (by decide) (by decide))
    (oneState_wellTyped (c := c) (fun m hm => (Option.some.inj hm).symm)
      (hashed_of_all rfl))).mpr ?_
  have hb : Bounded oneAbstract :=
    MapCall.bounded_of_card (Nat.le_trans card_oneAbstract (by decide))
  exact hasRoom_of_mem hb (Finmap.mem_insert.mpr (Or.inl rfl)) _

/-- On the same map `map-has` and `map-remove` do not find the key one, and
`map-insert` refuses two as a key because its value is one. -/
theorem map_natives_fail :
    ¬ (MapCall.has ⟨.map, 1#64⟩ oneValue).Meets idleHost
        (oneState [⟨.map, 1#64⟩, oneValue]) oneAbstract
      ∧ ¬ (MapCall.remove ⟨.map, 1#64⟩ oneValue).Meets idleHost
        (oneState [⟨.map, 1#64⟩, oneValue]) oneAbstract
      ∧ ¬ (MapCall.insert ⟨.map, 1#64⟩ ⟨.boolean, 1#64⟩ oneValue).Meets idleHost
        (oneState [⟨.map, 1#64⟩, ⟨.boolean, 1#64⟩, oneValue]) oneAbstract := by
  have hpair : ∀ v ∈ [(⟨.map, 1#64⟩ : Value), oneValue],
      ∃ hash, hashValue (oneState [⟨.map, 1#64⟩, oneValue]).world v = .ok hash :=
    hashed_of_all rfl
  refine ⟨?_, ?_, ?_⟩
  · let c := MapCall.has ⟨.map, 1#64⟩ oneValue
    intro hmeets
    obtain ⟨m, hash, x, hm, -⟩ :=
      (MapCall.meets_has_iff (oneState_ready (c := c) (by decide) (by decide))
        (oneState_wellTyped (c := c) (fun m hm => (Option.some.inj hm).symm) hpair)).mp hmeets
    have hbound := (object_bounds (mapObject_eq_ok.mp hm)).2
    exact absurd hbound (by decide)
  · let c := MapCall.remove ⟨.map, 1#64⟩ oneValue
    exact MapCall.not_meets_remove (oneState_ready (c := c) (by decide) (by decide))
      (oneState_wellTyped (c := c) (fun m hm => (Option.some.inj hm).symm) hpair)
  · let c := MapCall.insert ⟨.map, 1#64⟩ ⟨.boolean, 1#64⟩ oneValue
    have hthree : ∀ v ∈ c.args, ∃ hash, hashValue (oneState c.args).world v = .ok hash :=
      hashed_of_all rfl
    intro hmeets
    obtain ⟨hiff, -⟩ :=
      (MapCall.meets_insert_iff (oneState_ready (c := c) (by decide) (by decide))
        (oneState_wellTyped (c := c) (fun m hm => (Option.some.inj hm).symm) hthree)).mp hmeets
    have hone : keyOf (oneState c.args).world oneValue ∈ oneAbstract :=
      Finmap.mem_insert.mpr (Or.inl rfl)
    rcases Finmap.mem_insert.mp (hiff.mp hone) with heq | hmem
    · exact absurd (mapKey_eq.mp heq).2 (by decide)
    · exact Finmap.notMem_empty hmem

end Saurus
