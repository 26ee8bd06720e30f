import Saurus.World
import Saurus.Map.Refine

/-!
# Interned strings

`string_from_db` looks a string up by its hash alone. What it keeps is
therefore a table from hashes to strings (`Interning`): the first string
asked for with a hash takes the hash for good, and every later string with
that hash is answered by it. Interning is exact for a sequence of requests
if and only if no two different strings among them share a hash.
-/

namespace Saurus

open Basis

/-- A sequence of calls of `string_from_db`, as every caller makes them: each
string with its own hash. The answer pairs the calls with what they return. -/
def internAll : World → List (List Byte) → Outcome (World × List (List Byte × ObjAddr))
  | w, [] => pure (w, [])
  | w, str :: strs => do
      let (w, a) ← stringFromDb w (murmur str 0) str
      let (w, calls) ← internAll w strs
      pure (w, (str, a) :: calls)

/-- What interning promises: the object of a call has the bytes asked for,
and both comparisons of string values are comparisons of contents. -/
structure InterningExact (w : World) (calls : List (List Byte × ObjAddr)) : Prop where
  content : ∀ c ∈ calls, ∃ hash, w.object c.2 = .ok (.string hash c.1)
  same : ∀ c ∈ calls, ∀ d ∈ calls, c.2 = d.2 ↔ c.1 = d.1
  equal : ∀ c ∈ calls, ∀ d ∈ calls,
    valueEq (objValue .string c.2) (objValue .string d.2) = true ↔ c.1 = d.1

/-! ## Objects and their addresses -/

theorem object_bounds {w : World} {a : Nat} {o : Obj} (h : w.object a = .ok o) :
    1 ≤ a ∧ a ≤ w.objects.length := by
  unfold World.object at h
  split at h
  · cases h
  · rename_i h0
    obtain ⟨hlt, -⟩ := List.getElem?_eq_some_iff.mp (Outcome.ofOption_eq_ok.mp h)
    have hpos := Nat.pos_of_ne_zero h0
    omega

/-- Every object is of the 64-bit address space. -/
def World.Addressable (w : World) : Prop := w.objects.length < 2 ^ 64

theorem alloc_ok {w w' : World} {o : Obj} {a : ObjAddr} (h : w.alloc o = .ok (w', a)) :
    w' = { w with objects := w.objects ++ [o] } ∧ a = w.objects.length + 1
      ∧ w'.Addressable := by
  unfold World.alloc at h
  split at h
  · cases h
    refine ⟨rfl, rfl, ?_⟩
    simp only [World.Addressable, List.length_append, List.length_singleton]
    assumption
  · cases h

/-- Older objects stay where they are. -/
theorem object_append {w : World} {a : Nat} {o p : Obj} (h : w.object a = .ok o) :
    World.object { w with objects := w.objects ++ [p] } a = .ok o := by
  obtain ⟨hlo, hhi⟩ := object_bounds h
  have hlt : a - 1 < w.objects.length := by omega
  simp only [World.object, if_neg (Nat.ne_of_gt hlo)] at h ⊢
  rw [List.getElem?_append_left hlt]
  exact h

theorem object_alloc_self {w w' : World} {o : Obj} {a : ObjAddr}
    (h : w.alloc o = .ok (w', a)) : w'.object a = .ok o := by
  obtain ⟨rfl, rfl, -⟩ := alloc_ok h
  simp [World.object]

theorem addr_objValue {t : ValType} {a : ObjAddr} (h : a < 2 ^ 64) :
    (objValue t a).addr = a := by
  simpa [objValue, Value.addr] using h

/-- Objects stay as they are. -/
def World.Extends (w w' : World) : Prop := ∀ a o, w.object a = .ok o → w'.object a = .ok o

theorem World.Extends.rfl {w : World} : w.Extends w := fun _ _ h => h

theorem World.Extends.trans {w w' w'' : World} (h : w.Extends w') (h' : w'.Extends w'') :
    w.Extends w'' := fun a o hobj => h' a o (h a o hobj)

/-- `n` objects were added to the world and nothing else has changed in it
but what is drawn. -/
structure World.Adds (w w' : World) (n : Nat) : Prop where
  objects : w.Extends w'
  globals : w'.globals = w.globals
  length : w'.objects.length = w.objects.length + n

theorem World.Adds.rfl {w : World} : w.Adds w 0 := ⟨.rfl, Eq.refl _, Eq.refl _⟩

theorem World.Adds.trans {w w' w'' : World} {m n : Nat} (h : w.Adds w' m) (h' : w'.Adds w'' n) :
    w.Adds w'' (m + n) :=
  ⟨h.objects.trans h'.objects, h'.globals.trans h.globals, by
    rw [h'.length, h.length, Nat.add_assoc]⟩

theorem adds_alloc {w : World} (o : Obj) (hroom : w.objects.length + 1 < 2 ^ 64) :
    ∃ w', w.alloc o = .ok (w', w.objects.length + 1) ∧ w.Adds w' 1 := by
  refine ⟨{ w with objects := w.objects ++ [o] }, if_pos hroom, fun a p h => object_append h,
    Eq.refl _, ?_⟩
  simp

theorem hashValue_extends {w w' : World} (hw : w.Extends w') {v : Value} {hash : BitVec 32}
    (h : hashValue w v = .ok hash) : hashValue w' v = .ok hash := by
  unfold hashValue at h ⊢
  split at h
  case h_4 htype =>
    obtain ⟨o, hobj, h⟩ := Outcome.bind_eq_ok.mp h
    simp only [hw _ _ hobj, Outcome.ok_bind]
    exact h
  all_goals exact h

theorem valueEq_objValue {a b : ObjAddr} (ha : a < 2 ^ 64) (hb : b < 2 ^ 64) :
    valueEq (objValue .string a) (objValue .string b) = true ↔ a = b := by
  rw [valueEq_iff]
  constructor
  · rintro ⟨-, heq | ⟨hn, -⟩⟩
    · rw [← addr_objValue ha (t := .string), ← addr_objValue hb (t := .string)]
      exact congrArg BitVec.toNat heq
    · cases hn
  · rintro rfl
    exact ⟨rfl, Or.inl rfl⟩

/-- A value equal to a string value is that value. -/
theorem eq_of_valueEq_string {a : ObjAddr} {v : Value}
    (h : valueEq (objValue .string a) v = true) : v = objValue .string a := by
  obtain ⟨ht, hobj | ⟨hn, -⟩⟩ := valueEq_iff.mp h
  · cases v
    cases ht
    cases hobj
    rfl
  · cases hn

/-! ## The table -/

/-- The first string asked for with each hash, and its object. -/
abbrev InternTable : Type := BitVec 32 → Option (List Byte × ObjAddr)

/-- The key a hash has in `strings`. -/
def internKey (hash : BitVec 32) : MapKey := mapKey hash (dbKey hash)

/-- The world has the strings of the table, under their hashes and no others. -/
structure Interning (w : World) (f : KeyMap) (T : InternTable) : Prop where
  rep : Represents w.strings f
  lookup : ∀ hash, f.lookup (internKey hash)
    = (T hash).map fun e => objValue .string e.2
  keys : ∀ k ∈ f, ∃ hash, k = internKey hash
  hashed : ∀ hash e, T hash = some e → murmur e.1 0 = hash
  object : ∀ hash e, T hash = some e → w.object e.2 = .ok (.string hash e.1)
  addressable : ∀ hash e, T hash = some e → e.2 < 2 ^ 64

theorem internKey_injective {h h' : BitVec 32} (heq : internKey h = internKey h') : h = h' :=
  (mapKey_eq.mp heq).1

/-- One string a hash: no bucket ever has a second key. -/
theorem bucketCard_le_one {f : KeyMap} (hkeys : ∀ k ∈ f, ∃ hash, k = internKey hash)
    (hash : BitVec 32) : bucketCard f hash ≤ 1 := by
  refine Finset.card_le_one.mpr fun a ha b hb => ?_
  obtain ⟨ha, hah⟩ := Finset.mem_filter.mp ha
  obtain ⟨hb, hbh⟩ := Finset.mem_filter.mp hb
  obtain ⟨h, rfl⟩ := hkeys a (Finmap.mem_keys.mp ha)
  obtain ⟨h', rfl⟩ := hkeys b (Finmap.mem_keys.mp hb)
  exact congrArg internKey (hah.trans hbh.symm)

theorem interning_start {w : World} (h : w.strings = mapCreateEmpty) :
    Interning w ∅ (fun _ => none) where
  rep := h ▸ represents_empty
  lookup := fun _ => Finmap.lookup_empty _
  keys := fun _ hk => absurd hk (Finmap.notMem_empty)
  hashed := fun _ _ he => nomatch he
  object := fun _ _ he => nomatch he
  addressable := fun _ _ he => nomatch he

/-- A table with one more string. -/
def InternTable.add (T : InternTable) (hash : BitVec 32) (e : List Byte × ObjAddr) :
    InternTable := Function.update T hash (some e)

/-- What one call does: a known hash answers its first string whatever the
bytes asked for, a new hash takes the string. -/
theorem stringFromDb_ok {w w' : World} {f : KeyMap} {T : InternTable} (hi : Interning w f T)
    {str : List Byte} {a : ObjAddr}
    (h : stringFromDb w (murmur str 0) str = .ok (w', a)) :
    (∃ e, T (murmur str 0) = some e ∧ a = e.2 ∧ w' = w)
    ∨ (T (murmur str 0) = none ∧ ∃ f', Interning w' f' (T.add (murmur str 0) (str, a))) := by
  set hash := murmur str 0 with hhash
  have hlook := hi.lookup hash
  cases hT : T hash with
  | some e =>
      rw [hT] at hlook
      obtain ⟨v, hv, hveq⟩ := hi.rep.found hash (dbKey hash) _ hlook
      have := eq_of_valueEq_string hveq
      subst this
      have hget : mapGet w.strings (dbKey hash) hash = .ok (objValue .string e.2) := by
        rw [mapGet, hv]
        rfl
      rw [stringFromDb, hget, Outcome.ok_bind, if_pos (by simp [objValue])] at h
      cases h
      exact Or.inl ⟨e, rfl, addr_objValue (hi.addressable hash e hT), rfl⟩
  | none =>
      rw [hT] at hlook
      refine Or.inr ⟨rfl, ?_⟩
      have hget : mapGet w.strings (dbKey hash) hash = .ok ⟨.inv, 0#64⟩ := by
        rw [mapGet, hi.rep.absent hash _ hlook]
        rfl
      rw [stringFromDb, hget, Outcome.ok_bind, if_neg (by simp)] at h
      obtain ⟨⟨w1, b⟩, halloc, h⟩ := Outcome.bind_eq_ok.mp h
      obtain ⟨strings, hins, h⟩ := Outcome.bind_eq_ok.mp h
      cases h
      have hself := object_alloc_self halloc
      obtain ⟨rfl, rfl, haddr⟩ := alloc_ok halloc
      have hnew : internKey hash ∉ f := Finmap.lookup_eq_none.mp hlook
      have hkeys : ∀ k ∈ f.insert (internKey hash)
          (objValue .string (w.objects.length + 1)), ∃ h, k = internKey h := by
        intro k hk
        rcases Finmap.mem_insert.mp hk with rfl | hk
        · exact ⟨hash, rfl⟩
        · exact hi.keys k hk
      have hbucket := Nat.le_trans (bucketCard_le_one hkeys hash) (show 1 ≤ 255 by decide)
      obtain ⟨m', hm', hrep⟩ := mapInsert_ok hi.rep hbucket
        (card_of_mapInsert_ok hi.rep hnew hbucket hins)
      rw [hins] at hm'
      cases hm'
      refine ⟨_, hrep, fun h' => ?_, hkeys, fun h' e he => ?_, fun h' e he => ?_,
        fun h' e he => ?_⟩
      · by_cases hh : h' = hash
        · subst hh
          rw [InternTable.add, Function.update_self]
          exact Finmap.lookup_insert _
        · rw [InternTable.add, Function.update_of_ne hh]
          exact (Finmap.lookup_insert_of_ne _ fun heq => hh (internKey_injective heq)).trans
            (hi.lookup h')
      all_goals
        by_cases hh : h' = hash
        · subst hh
          rw [InternTable.add, Function.update_self] at he
          cases he
          first
            | rfl
            | exact hself
            | simpa [World.Addressable] using haddr
        · rw [InternTable.add, Function.update_of_ne hh] at he
          first
            | exact hi.hashed h' e he
            | exact object_append (hi.object h' e he)
            | exact hi.addressable h' e he

/-! ## Calls that complete -/

/-- A valid table of strings and room for `n` more. -/
structure World.InternRoom (w : World) (n : Nat) : Prop where
  table : ∃ f T, Interning w f T
  strings : w.strings.cnt + n < 2 ^ 31
  objects : w.objects.length + n < 2 ^ 64

theorem World.InternRoom.mono {w : World} {m n : Nat} (h : w.InternRoom n) (hmn : m ≤ n) :
    w.InternRoom m :=
  ⟨h.table, by have := h.strings; omega, by have := h.objects; omega⟩

theorem stringFromDb_progress {w : World} {n : Nat} (h : w.InternRoom (n + 1))
    (str : List Byte) :
    ∃ w' a, stringFromDb w (murmur str 0) str = .ok (w', a) ∧ w'.InternRoom n := by
  obtain ⟨f, T, hi⟩ := h.table
  have hstrings := h.strings
  have hobjects := h.objects
  set hash := murmur str 0 with hhash
  have hlook := hi.lookup hash
  cases hT : T hash with
  | some e =>
      rw [hT] at hlook
      obtain ⟨v, hv, hveq⟩ := hi.rep.found hash (dbKey hash) _ hlook
      have := eq_of_valueEq_string hveq
      subst this
      have hget : mapGet w.strings (dbKey hash) hash = .ok (objValue .string e.2) := by
        rw [mapGet, hv]
        rfl
      refine ⟨w, (objValue .string e.2).addr, ?_, h.mono (Nat.le_succ n)⟩
      rw [stringFromDb, hget, Outcome.ok_bind, if_pos (by simp [objValue])]
      rfl
  | none =>
      rw [hT] at hlook
      have hget : mapGet w.strings (dbKey hash) hash = .ok ⟨.inv, 0#64⟩ := by
        rw [mapGet, hi.rep.absent hash _ hlook]
        rfl
      let w1 : World := { w with objects := w.objects ++ [.string hash str] }
      have halloc : w.alloc (.string hash str) = .ok (w1, w.objects.length + 1) := by
        rw [World.alloc, if_pos (by omega)]
      have hnew : internKey hash ∉ f := Finmap.lookup_eq_none.mp hlook
      have hcard : (f.insert (mapKey hash (dbKey hash))
          (objValue .string (w.objects.length + 1))).keys.card = f.keys.card + 1 := by
        rw [keys_insert, Finset.card_insert_of_notMem (by rwa [Finmap.mem_keys])]
      have hkeys : ∀ k ∈ f.insert (internKey hash)
          (objValue .string (w.objects.length + 1)), ∃ h, k = internKey h := by
        intro k hk
        rcases Finmap.mem_insert.mp hk with rfl | hk
        · exact ⟨hash, rfl⟩
        · exact hi.keys k hk
      have hcount := hi.rep.count
      obtain ⟨m', hm', hrep⟩ := mapInsert_ok hi.rep
        (Nat.le_trans (bucketCard_le_one hkeys hash) (show 1 ≤ 255 by decide))
        (by rw [hcard]; omega)
      have hrun : stringFromDb w hash str
          = .ok ({ w1 with strings := m' }, w.objects.length + 1) := by
        rw [stringFromDb, hget, Outcome.ok_bind, if_neg (by simp), halloc, Outcome.ok_bind]
        change (mapInsert w.strings _ _ _ >>= _) = _
        rw [hm']
        rfl
      refine ⟨_, _, hrun, ?_, ?_, ?_⟩
      · rcases stringFromDb_ok hi hrun with ⟨e, he, -⟩ | ⟨-, f', hi'⟩
        · rw [← hhash, hT] at he
          cases he
        · exact ⟨f', _, hi'⟩
      · have hcount' := hrep.count
        rw [hcard] at hcount'
        change m'.cnt + n < 2 ^ 31
        omega
      · change (w.objects ++ [_]).length + n < 2 ^ 64
        rw [List.length_append, List.length_singleton]
        omega

/-! ## Sequences of calls -/

/-- Table `T'` has everything `T` has. -/
def InternTable.Extends (T' T : InternTable) : Prop :=
  ∀ hash e, T hash = some e → T' hash = some e

/-- A sequence of calls leaves a table in which every call finds its object
under the hash of its string; new entries are strings of the sequence. -/
theorem internAll_ok : ∀ (strs : List (List Byte)) {w w' : World} {f : KeyMap}
    {T : InternTable} {calls : List (List Byte × ObjAddr)}, Interning w f T →
    internAll w strs = .ok (w', calls) →
    ∃ f' T', Interning w' f' T' ∧ T'.Extends T ∧ calls.map Prod.fst = strs
      ∧ (∀ c ∈ calls, ∃ e, T' (murmur c.1 0) = some e ∧ c.2 = e.2)
      ∧ (∀ hash e, T' hash = some e → T hash = some e ∨ e.1 ∈ strs)
  | [], w, w', f, T, calls, hi, h => by
      cases h
      exact ⟨f, T, hi, fun _ _ he => he, rfl, by simp, fun _ _ he => Or.inl he⟩
  | str :: strs, w, w', f, T, calls, hi, h => by
      rw [internAll] at h
      obtain ⟨⟨w1, a⟩, hone, h⟩ := Outcome.bind_eq_ok.mp h
      obtain ⟨⟨w2, rest⟩, hrest, h⟩ := Outcome.bind_eq_ok.mp h
      cases h
      rcases stringFromDb_ok hi hone with ⟨e, hT, rfl, rfl⟩ | ⟨hT, f1, hi1⟩
      · obtain ⟨f', T', hi', hext, hmap, hcalls, hfrom⟩ := internAll_ok strs hi hrest
        refine ⟨f', T', hi', hext, by rw [List.map_cons, hmap], ?_, ?_⟩
        · rintro c hc
          rcases List.mem_cons.mp hc with rfl | hc
          · exact ⟨e, hext _ _ hT, rfl⟩
          · exact hcalls c hc
        · exact fun hash e he => (hfrom hash e he).imp_right (List.mem_cons_of_mem _)
      · obtain ⟨f', T', hi', hext, hmap, hcalls, hfrom⟩ := internAll_ok strs hi1 hrest
        have hself : T.add (murmur str 0) (str, a) (murmur str 0) = some (str, a) :=
          Function.update_self ..
        have hold : (T.add (murmur str 0) (str, a)).Extends T := by
          intro hash e he
          rw [InternTable.add, Function.update_of_ne]
          · exact he
          · rintro rfl
            rw [hT] at he
            cases he
        refine ⟨f', T', hi', fun hash e he => hext _ _ (hold hash e he),
          by rw [List.map_cons, hmap], ?_, ?_⟩
        · intro c hc
          rcases List.mem_cons.mp hc with rfl | hc
          · exact ⟨(str, a), hext _ _ hself, rfl⟩
          · exact hcalls c hc
        · intro hash e he
          rcases hfrom hash e he with hadd | hmem
          · by_cases hh : hash = murmur str 0
            · subst hh
              rw [hself] at hadd
              cases hadd
              exact Or.inr List.mem_cons_self
            · rw [InternTable.add, Function.update_of_ne hh] at hadd
              exact Or.inl hadd
          · exact Or.inr (List.mem_cons_of_mem _ hmem)

/-- **Interning is exact where hashes are.** After any sequence of calls
from an empty table, the promise holds for them if and only if no two
different strings of the sequence share a hash. -/
theorem interning_exact_iff {w w' : World} {strs : List (List Byte)}
    {calls : List (List Byte × ObjAddr)} (hempty : w.strings = mapCreateEmpty)
    (hrun : internAll w strs = .ok (w', calls)) :
    InterningExact w' calls ↔
      ∀ r ∈ strs, ∀ r' ∈ strs, murmur r 0 = murmur r' 0 → r = r' := by
  obtain ⟨f, T, hi, -, hmap, hcalls, hfrom⟩ := internAll_ok strs (interning_start hempty) hrun
  constructor
  · intro hex r hr r' hr' hh
    rw [← hmap] at hr hr'
    obtain ⟨c, hc, rfl⟩ := List.mem_map.mp hr
    obtain ⟨d, hd, rfl⟩ := List.mem_map.mp hr'
    obtain ⟨e, he, hce⟩ := hcalls c hc
    obtain ⟨e', he', hde⟩ := hcalls d hd
    rw [hh, he'] at he
    cases he
    exact (hex.same c hc d hd).mp (hce.trans hde.symm)
  · intro hinj
    have hmem : ∀ c ∈ calls, c.1 ∈ strs := fun c hc => hmap ▸ List.mem_map_of_mem hc
    -- the entry a call finds is the call's own string
    have hown : ∀ c ∈ calls, T (murmur c.1 0) = some c := by
      intro c hc
      obtain ⟨e, he, hce⟩ := hcalls c hc
      have hin : e.1 ∈ strs := (hfrom _ e he).resolve_left fun hno => nomatch hno
      have : e.1 = c.1 := hinj _ hin _ (hmem c hc) (hi.hashed _ e he)
      rw [he, Option.some_inj]
      exact Prod.ext this hce.symm
    have hobj : ∀ c ∈ calls, w'.object c.2 = .ok (.string (murmur c.1 0) c.1) :=
      fun c hc => hi.object _ c (hown c hc)
    have hsame : ∀ c ∈ calls, ∀ d ∈ calls, c.2 = d.2 ↔ c.1 = d.1 := by
      intro c hc d hd
      constructor
      · intro heq
        have h1 := hobj c hc
        rw [heq, hobj d hd] at h1
        exact (Obj.string.inj (Outcome.ok.inj h1)).2.symm
      · intro heq
        have h1 := hown c hc
        rw [heq, hown d hd] at h1
        exact congrArg Prod.snd (Option.some.inj h1).symm
    refine ⟨fun c hc => ⟨_, hobj c hc⟩, hsame, fun c hc d hd => ?_⟩
    rw [valueEq_objValue (hi.addressable _ c (hown c hc)) (hi.addressable _ d (hown d hd))]
    exact hsame c hc d hd

/-! ## Two strings with one hash -/

/-- Nothing interned yet. -/
def emptyWorld : World := ⟨[], mapCreateEmpty, 0, 0, 0⟩

/-- `"gjr"` with its NUL. -/
def nameGjr : List Byte := [0x67#8, 0x6a#8, 0x72#8, 0#8]

/-- `"mqqt"` with its NUL. -/
def nameMqqt : List Byte := [0x6d#8, 0x71#8, 0x71#8, 0x74#8, 0#8]

/-- A run whose calls are known completes with them. -/
theorem internAll_of_calls {w : World} {strs : List (List Byte)}
    {calls : List (List Byte × ObjAddr)}
    (h : (internAll w strs).toOption.map Prod.snd = some calls) :
    ∃ w', internAll w strs = .ok (w', calls) := by
  obtain ⟨⟨w', _⟩, hrun, rfl⟩ := Option.map_eq_some_iff.mp h
  exact ⟨w', Outcome.toOption_eq_some.mp hrun⟩

/-- Two different strings without a collision, one of them asked for twice. -/
theorem interning_exact_iff_two :
    ∃ w, internAll emptyWorld [nameGjr, globalName, nameGjr]
        = .ok (w, [(nameGjr, 1), (globalName, 2), (nameGjr, 1)])
      ∧ (InterningExact w [(nameGjr, 1), (globalName, 2), (nameGjr, 1)] ↔
        ∀ r ∈ [nameGjr, globalName, nameGjr], ∀ r' ∈ [nameGjr, globalName, nameGjr],
          murmur r 0 = murmur r' 0 → r = r') := by
  have hcalls : (internAll emptyWorld [nameGjr, globalName, nameGjr]).toOption.map Prod.snd
      = some [(nameGjr, 1), (globalName, 2), (nameGjr, 1)] := by decide +kernel
  obtain ⟨w, hw⟩ := internAll_of_calls hcalls
  exact ⟨w, hw, interning_exact_iff rfl hw⟩

/-- Both strings hash to `0x4ed1b6bb`: the second request is answered by the
object of the first. -/
theorem interning_confuses :
    ∃ w calls, internAll emptyWorld [nameGjr, nameMqqt] = .ok (w, calls)
      ∧ ¬ InterningExact w calls := by
  obtain ⟨w, hw⟩ : ∃ w, internAll emptyWorld [nameGjr, nameMqqt]
      = .ok (w, [(nameGjr, 1), (nameMqqt, 1)]) := internAll_of_calls (by decide +kernel)
  refine ⟨w, _, hw, fun hex => ?_⟩
  have := (hex.same (nameGjr, 1) (by simp) (nameMqqt, 1) (by simp)).mp rfl
  exact absurd this (by decide)

end Saurus
