import Saurus.Lang.Values
import Saurus.Map.Fresh

/-!
# Strings and globals of a running program

Strings are compared by their addresses and globals are looked up by them. In
a world whose strings all come from a set without collisions (`Strung`) that
is comparing and looking up by contents: a global is found where the program
has defined it, with the value it was given, and nowhere else (`Defines`).
-/

namespace Saurus

open Basis

/-! ## Strings -/

/-- No two strings of the set share a hash. -/
def Hashed (U : Set (List Byte)) : Prop := ∀ s ∈ U, ∀ t ∈ U, murmur s 0 = murmur t 0 → s = t

/-- Every string is interned, and is one of the set. -/
def World.Strung (U : Set (List Byte)) (w : World) : Prop :=
  ∃ f T, Interning w f T ∧ (∀ hash e, T hash = some e → e.1 ∈ U)
    ∧ ∀ a hash str, w.object a = .ok (.string hash str) → T hash = some (str, a)

/-- There is room for `n` more objects, strings and globals. -/
structure World.Spare (w : World) (n : Nat) : Prop where
  strings : w.strings.cnt + n < 2 ^ 31
  objects : w.objects.length + n < 2 ^ 64
  globals : ∀ m, globalsMap w = .ok m → m.cnt + n < 2 ^ 31

theorem World.Spare.mono {w : World} {m n : Nat} (h : w.Spare n) (hmn : m ≤ n) : w.Spare m :=
  ⟨by have := h.strings; omega, by have := h.objects; omega, fun g hg => by
    have := h.globals g hg
    omega⟩

/-- The world has gone on: data stays, strings are interned, the globals are
the same, and at most `n` objects and strings are new. -/
structure World.GoesOn (U : Set (List Byte)) (w w' : World) (n : Nat) : Prop where
  remains : w.Remains w'
  strung : w'.Strung U
  globals : w'.globals = w.globals
  objects : w'.objects.length ≤ w.objects.length + n
  strings : w'.strings.cnt ≤ w.strings.cnt + n

section Worlds

variable {U : Set (List Byte)} {w w' w'' : World} {m n : Nat}

theorem World.GoesOn.rfl (h : w.Strung U) : w.GoesOn U w 0 :=
  ⟨.rfl, h, Eq.refl _, Nat.le_refl _, by omega⟩

theorem World.GoesOn.trans (h : w.GoesOn U w' m) (h' : w'.GoesOn U w'' n) :
    w.GoesOn U w'' (m + n) :=
  ⟨h.remains.trans h'.remains, h'.strung, h'.globals.trans h.globals,
    by have := h.objects; have := h'.objects; omega,
    by have := h.strings; have := h'.strings; omega⟩

theorem World.GoesOn.mono (h : w.GoesOn U w' m) (hmn : m ≤ n) : w.GoesOn U w' n :=
  ⟨h.remains, h.strung, h.globals, by have := h.objects; omega, by have := h.strings; omega⟩

theorem World.GoesOn.globalsMap (h : w.GoesOn U w' n) {g : HMap} (hg : globalsMap w = .ok g) :
    globalsMap w' = .ok g := by
  obtain ⟨o, hobj, hg⟩ := Outcome.bind_eq_ok.mp hg
  cases o with
  | map g' =>
      cases hg
      rw [Saurus.globalsMap, h.globals, h.remains _ (.map g) trivial hobj]
      rfl
  | _ => cases hg

theorem World.Spare.goesOn (hs : w.Spare (m + n)) (h : w.GoesOn U w' m)
    (hg : ∃ g, Saurus.globalsMap w = .ok g) : w'.Spare n := by
  obtain ⟨g, hg⟩ := hg
  refine ⟨?_, ?_, fun g' hg' => ?_⟩
  · have := hs.strings
    have := h.strings
    omega
  · have := hs.objects
    have := h.objects
    omega
  · rw [h.globalsMap hg] at hg'
    cases hg'
    have := hs.globals g hg
    omega

/-- The hash of a string object is that of its bytes. -/
theorem World.Strung.hash_eq (h : w.Strung U) {a : ObjAddr} {hash : BitVec 32} {str : List Byte}
    (hobj : w.object a = .ok (.string hash str)) : hash = murmur str 0 := by
  obtain ⟨f, T, hi, -, honly⟩ := h
  exact (hi.hashed _ _ (honly a hash str hobj)).symm

theorem World.Strung.addr_lt (h : w.Strung U) {a : ObjAddr} {hash : BitVec 32} {str : List Byte}
    (hobj : w.object a = .ok (.string hash str)) : a < 2 ^ 64 := by
  obtain ⟨f, T, hi, -, honly⟩ := h
  exact hi.addressable _ _ (honly a hash str hobj)

/-- There is one object of a hash. -/
theorem World.Strung.unique (h : w.Strung U) {a b : ObjAddr} {hash : BitVec 32}
    {s t : List Byte} (ha : w.object a = .ok (.string hash s))
    (hb : w.object b = .ok (.string hash t)) : a = b ∧ s = t := by
  obtain ⟨f, T, -, -, honly⟩ := h
  have heq := (honly a hash s ha).symm.trans (honly b hash t hb)
  exact ⟨congrArg Prod.snd (Option.some.inj heq), congrArg Prod.fst (Option.some.inj heq)⟩

/-- And one of a string. -/
theorem World.Strung.same (h : w.Strung U) {a b : ObjAddr} {hash hash' : BitVec 32}
    {s : List Byte} (ha : w.object a = .ok (.string hash s))
    (hb : w.object b = .ok (.string hash' s)) : a = b := by
  have hash_eq := (h.hash_eq ha).trans (h.hash_eq hb).symm
  exact (h.unique ha (hash_eq ▸ hb)).1

theorem Interning.extends {f : KeyMap} {T : InternTable} (hi : Interning w f T)
    (hw : w.Extends w') (hstrings : w'.strings = w.strings) : Interning w' f T where
  rep := hstrings ▸ hi.rep
  lookup := hi.lookup
  keys := hi.keys
  hashed := hi.hashed
  object := fun hash e he => hw _ _ (hi.object hash e he)
  addressable := hi.addressable

theorem object_append_cases {o p : Obj} {a : Nat}
    (h : World.object { w with objects := w.objects ++ [o] } a = .ok p) :
    w.object a = .ok p ∨ p = o ∧ a = w.objects.length + 1 := by
  obtain ⟨hlo, hhi⟩ := object_bounds h
  rw [List.length_append, List.length_singleton] at hhi
  unfold World.object at h ⊢
  rw [if_neg (Nat.ne_of_gt hlo)] at h ⊢
  dsimp only at h
  by_cases hlt : a - 1 < w.objects.length
  · rw [List.getElem?_append_left hlt] at h
    exact Or.inl h
  · have heq : a = w.objects.length + 1 := by omega
    subst heq
    rw [Nat.add_sub_cancel, List.getElem?_concat_length] at h
    exact Or.inr ⟨(Outcome.ok.inj h).symm, rfl⟩

/-- A new object that is no string. -/
theorem goesOn_alloc (hs : w.Strung U) {o : Obj} (ho : ∀ hash str, o ≠ .string hash str)
    (hroom : w.objects.length + 1 < 2 ^ 64) :
    ∃ w', w.alloc o = .ok (w', w.objects.length + 1) ∧ w.GoesOn U w' 1
      ∧ w'.object (w.objects.length + 1) = .ok o ∧ w'.strings = w.strings := by
  obtain ⟨f, T, hi, hmem, honly⟩ := hs
  have halloc : w.alloc o
      = .ok ({ w with objects := w.objects ++ [o] }, w.objects.length + 1) := if_pos hroom
  have hext : w.Extends { w with objects := w.objects ++ [o] } := fun a p h => object_append h
  refine ⟨_, halloc, ⟨.of_extends hext, ⟨f, T, hi.extends hext rfl, hmem, ?_⟩, rfl, ?_, ?_⟩,
    object_alloc_self halloc, rfl⟩
  · intro a hash str hobj
    rcases object_append_cases hobj with hobj | ⟨heq, -⟩
    · exact honly a hash str hobj
    · exact absurd heq.symm (ho hash str)
  · simp
  · simp

theorem hash_of_hashed (hU : Hashed U) {f : KeyMap} {T : InternTable} (hi : Interning w f T)
    (hmem : ∀ hash e, T hash = some e → e.1 ∈ U) {str : List Byte} (hstr : str ∈ U)
    {e : List Byte × ObjAddr} (he : T (murmur str 0) = some e) : e.1 = str :=
  hU _ (hmem _ _ he) _ hstr (hi.hashed _ _ he)

/-- A string of the set is interned as itself. -/
theorem internString_goesOn (hU : Hashed U) (hs : w.Strung U) {str : List Byte} (hstr : str ∈ U)
    (hroom : w.Spare 1) :
    ∃ w' v, internString w str = .ok (w', v) ∧ w.GoesOn U w' 1 ∧ v.type = .string
      ∧ w'.object v.addr = .ok (.string (murmur str 0) str) := by
  obtain ⟨f, T, hi, hmem, honly⟩ := hs
  obtain ⟨w', a, hrun, -⟩ := stringFromDb_progress (n := 0)
    ⟨⟨f, T, hi⟩, hroom.strings, hroom.objects⟩ str
  refine ⟨w', objValue .string a, by rw [internString, hrun]; rfl, ?_, rfl, ?_⟩
  all_goals rcases stringFromDb_ok hi hrun with ⟨e, he, rfl, rfl⟩ | ⟨hnone, f', hi'⟩
  · exact ⟨.rfl, ⟨f, T, hi, hmem, honly⟩, rfl, Nat.le_succ _, by omega⟩
  · obtain ⟨v, hget, hrun'⟩ := Outcome.bind_eq_ok.mp hrun
    have hinv : v.type = .inv := by
      have hlook := hi.lookup (murmur str 0)
      rw [hnone] at hlook
      rw [mapGet, hi.rep.absent _ _ hlook] at hget
      cases hget
      rfl
    rw [if_neg (by simp [hinv])] at hrun'
    obtain ⟨⟨w1, b⟩, halloc, hrun'⟩ := Outcome.bind_eq_ok.mp hrun'
    obtain ⟨strings, hins, hrun'⟩ := Outcome.bind_eq_ok.mp hrun'
    cases hrun'
    obtain ⟨rfl, rfl, -⟩ := alloc_ok halloc
    refine ⟨.of_extends fun a p h => object_append h,
      ⟨f', _, hi', fun hash e he => ?_, fun a hash s hobj => ?_⟩, rfl, ?_, ?_⟩
    · by_cases hh : hash = murmur str 0
      · subst hh
        rw [InternTable.add, Function.update_self] at he
        cases he
        exact hstr
      · rw [InternTable.add, Function.update_of_ne hh] at he
        exact hmem _ _ he
    · rcases object_append_cases (w := w) hobj with hold | ⟨heq, rfl⟩
      · have hT := honly a hash s hold
        rw [InternTable.add, Function.update_of_ne]
        · exact hT
        · rintro rfl
          rw [hnone] at hT
          cases hT
      · cases heq
        exact Function.update_self ..
    · simp
    · have hcount := hi'.rep.count
      have hcount' := hi.rep.count
      obtain ⟨r, hr, hget'⟩ := Outcome.map_eq_ok.mp hins
      obtain ⟨⟨ans, added⟩, -, hr⟩ := Outcome.bind_eq_ok.mp hr
      dsimp only at hget' ⊢
      cases ans with
      | same =>
          cases hr
          rw [← hget']
          exact Int.le_add_one (Int.le_refl _)
      | other root =>
          dsimp only at hr
          split at hr
          · obtain ⟨cnt, hcnt, hr⟩ := Outcome.bind_eq_ok.mp hr
            cases hr
            obtain ⟨_, -, hcnt⟩ := Outcome.bind_eq_ok.mp hcnt
            cases hcnt
            rw [← hget']
            exact Int.le_refl _
          · cases hr
            rw [← hget']
            exact Int.le_add_one (Int.le_refl _)
  · rw [addr_objValue (hi.addressable _ _ he), hi.object _ _ he, hash_of_hashed hU hi hmem hstr he]
  · have hself : InternTable.add T (murmur str 0) (str, a) (murmur str 0) = some (str, a) :=
      Function.update_self ..
    rw [addr_objValue (hi'.addressable _ _ hself), hi'.object _ _ hself]

end Worlds

/-! ## The map of globals -/

/-- The keys of a map are strings of the world. -/
def NameKeys (w : World) (g : KeyMap) : Prop :=
  ∀ k ∈ g, ∃ a hash str, w.object a = .ok (.string hash str)
    ∧ k = mapKey hash (objValue .string a)

/-- The globals of the world are those that were defined, `_G` apart. -/
structure Defines (env : GenEnv) (U : Set (List Byte)) (γ : Globals) (w : World) : Prop where
  names : ∀ sym x, γ.lookup sym = some x →
    ∃ a hash, w.object a = .ok (.string hash (sym ++ [0#8]))
  map : ∃ m g, globalsMap w = .ok m ∧ Represents m g ∧ NameKeys w g
    ∧ ∀ a hash sym, w.object a = .ok (.string hash (sym ++ [0#8])) → sym ≠ globalAtom →
      match γ.lookup sym with
      | some x => ∃ v, mapGet m (objValue .string a) hash = .ok v ∧ Rep env U w x v
      | none => mapKey hash (objValue .string a) ∉ g

section Maps

variable {env : GenEnv} {U : Set (List Byte)} {w w' : World} {γ : Globals} {g : KeyMap} {n : Nat}

theorem NameKeys.remains (h : NameKeys w g) (hw : w.Remains w') : NameKeys w' g := by
  intro k hk
  obtain ⟨a, hash, str, hobj, rfl⟩ := h k hk
  exact ⟨a, hash, str, hw _ _ trivial hobj, rfl⟩

/-- Keys of two strings are the same if the strings are. -/
theorem objValue_key {a b : ObjAddr} {hash hash' : BitVec 32} (ha : a < 2 ^ 64) (hb : b < 2 ^ 64) :
    mapKey hash (objValue .string a) = mapKey hash' (objValue .string b) ↔ hash = hash' ∧ a = b :=
  mapKey_eq.trans (and_congr_right fun _ => valueEq_objValue ha hb)

theorem NameKeys.bucket (h : NameKeys w g) (hs : w.Strung U) (hash : BitVec 32) :
    bucketCard g hash ≤ 1 := by
  refine Finset.card_le_one.mpr fun k hk k' hk' => ?_
  obtain ⟨hk, hkh⟩ := Finset.mem_filter.mp hk
  obtain ⟨hk', hkh'⟩ := Finset.mem_filter.mp hk'
  obtain ⟨a, hash₁, s, hobj, rfl⟩ := h k (Finmap.mem_keys.mp hk)
  obtain ⟨b, hash₂, t, hobj', rfl⟩ := h k' (Finmap.mem_keys.mp hk')
  obtain rfl : hash₁ = hash := hkh
  obtain rfl : hash₂ = hash₁ := hkh'
  rw [(hs.unique hobj hobj').1]

theorem NameKeys.insert (h : NameKeys w g) {a : ObjAddr} {hash : BitVec 32} {str : List Byte}
    (hobj : w.object a = .ok (.string hash str)) (v : Value) :
    NameKeys w (g.insert (mapKey hash (objValue .string a)) v) := by
  intro k hk
  rcases Finmap.mem_insert.mp hk with rfl | hk
  · exact ⟨a, hash, str, hobj, rfl⟩
  · exact h k hk

/-- Whatever else goes on, the globals stay. -/
theorem Defines.goesOn (h : Defines env U γ w) (hs : w.Strung U) (hw : w.GoesOn U w' n) :
    Defines env U γ w' := by
  obtain ⟨hnames, m, g, hm, hr, hkeys, hall⟩ := h
  refine ⟨fun sym x hx => ?_, m, g, hw.globalsMap hm, hr, hkeys.remains hw.remains,
    fun a hash sym hobj hsym => ?_⟩
  · obtain ⟨a, hash, hobj⟩ := hnames sym x hx
    exact ⟨a, hash, hw.remains _ _ trivial hobj⟩
  · cases hlook : γ.lookup sym with
    | some x =>
        obtain ⟨b, hash', hold⟩ := hnames sym x hlook
        have hnew := hw.remains _ (.string ..) trivial hold
        obtain rfl := hw.strung.same hnew hobj
        rw [hobj] at hnew
        cases hnew
        have hfound := hall _ _ sym hold hsym
        rw [hlook] at hfound
        obtain ⟨v, hv, hrep⟩ := hfound
        exact ⟨v, hv, hrep.remains hw.remains⟩
    | none =>
        intro hmem
        obtain ⟨b, hash', str, hold, hkey⟩ := hkeys _ hmem
        have hnew := hw.remains _ (.string ..) trivial hold
        obtain ⟨rfl, rfl⟩ := (objValue_key (hw.strung.addr_lt hobj) (hs.addr_lt hold)).mp hkey
        rw [hobj] at hnew
        cases hnew
        have habsent := hall _ _ sym hold hsym
        rw [hlook] at habsent
        exact habsent hmem

theorem string_value {v : Value} (ht : v.type = .string) : v = objValue .string v.addr := by
  cases v with
  | mk type obj =>
      obtain rfl : type = .string := ht
      simp [objValue, Value.addr]

/-- A key is put into the map of globals. -/
theorem insertGlobal_ok (hs : w.Strung U) {m : HMap} (hm : globalsMap w = .ok m)
    (hr : Represents m g) (hkeys : NameKeys w g) {a : ObjAddr} {hash : BitVec 32}
    {str : List Byte} (hobj : w.object a = .ok (.string hash str)) (v : Value)
    (hroom : w.Spare 1) :
    ∃ w' m', insertGlobal w (objValue .string a) hash v = .ok w' ∧ w.Remains w' ∧ w'.Strung U
      ∧ w'.objects.length ≤ w.objects.length + 1 ∧ w'.strings = w.strings
      ∧ globalsMap w' = .ok m'
      ∧ Represents m' (g.insert (mapKey hash (objValue .string a)) v) ∧ m'.cnt ≤ m.cnt + 1
      ∧ (mapKey hash (objValue .string a) ∉ g → mapGet m' (objValue .string a) hash = .ok v)
      ∧ ∀ hash' key', mapKey hash' key' ≠ mapKey hash (objValue .string a) →
        mapGet m' key' hash' = mapGet m key' hash' := by
  have hbucket : bucketCard (g.insert (mapKey hash (objValue .string a)) v) hash ≤ 255 :=
    Nat.le_trans ((hkeys.insert hobj v).bucket hs hash) (by decide)
  have hcount := hr.count
  have hroom' := hroom.globals m hm
  have hle : (g.insert (mapKey hash (objValue .string a)) v).keys.card ≤ g.keys.card + 1 :=
    card_step_le g (.insert (objValue .string a) hash v)
  obtain ⟨m', hins', hr'⟩ := mapInsert_ok hr hbucket (by omega)
  obtain ⟨r, hins, rfl⟩ := Outcome.map_eq_ok.mp hins'
  have hcount' := hr'.count
  have hfresh : mapKey hash (objValue .string a) ∉ g →
      mapGet (r.getD m) (objValue .string a) hash = .ok v :=
    fun hnew => mapInsert?_fresh hr hnew hbucket hins
  have hothers : ∀ hash' key', mapKey hash' key' ≠ mapKey hash (objValue .string a) →
      mapGet (r.getD m) key' hash' = mapGet m key' hash' :=
    fun _ _ hne => mapInsert?_others hr hbucket hins hne
  cases r with
  | none =>
      refine ⟨w, m, ?_, .rfl, hs, by omega, rfl, hm, hr', by omega, hfresh, hothers⟩
      rw [insertGlobal, hm, Outcome.ok_bind, hins]
      rfl
  | some m' =>
      obtain ⟨w1, halloc, hw1, hself, hstrings⟩ :=
        goesOn_alloc hs (o := .map m') nofun hroom.objects
      refine ⟨{ w1 with globals := w.objects.length + 1 }, m', ?_, ?_, ?_, hw1.objects, hstrings,
        ?_, hr', ?_, hfresh, hothers⟩
      · rw [insertGlobal, hm, Outcome.ok_bind, hins, Outcome.ok_bind]
        dsimp only
        rw [halloc]
        rfl
      · exact hw1.remains
      · obtain ⟨f, T, hi, hmem, honly⟩ := hw1.strung
        exact ⟨f, T, hi.extends (fun _ _ h => h) rfl, hmem, honly⟩
      · change (World.object w1 _ >>= _) = _
        rw [hself]
        rfl
      · dsimp only [Option.getD_some] at hcount'
        omega

end Maps

/-! ## Getting and defining -/

section Access

variable {env : GenEnv} {U : Set (List Byte)} {w : World} {γ : Globals} {func : FunctionObj}
  {k : Nat} {key : Value} {sym : Atom}

/-- The constant is the name of a global. -/
def Names (w : World) (func : FunctionObj) (k : Nat) (sym : Atom) : Prop :=
  0#8 ∉ sym ∧ sym ≠ globalAtom
    ∧ ∃ key, func.constants[k]? = some key ∧ (Literal.string sym).Denotes w key

theorem bytesText_name (h : 0#8 ∉ sym) : bytesText (sym ++ [0#8]) = sym.text := by
  rw [bytesText, Atom.text, List.takeWhile_append_of_pos]
  · simp
  · intro b hb
    rw [decide_eq_true_eq]
    rintro rfl
    exact h hb

theorem globalKey_name (h : (Literal.string sym).Denotes w key)
    (hkey : func.constants[k]? = some key) :
    ∃ a hash, key = objValue .string a ∧ w.object a = .ok (.string hash (sym ++ [0#8]))
      ∧ globalKey w func k = .ok (key, hash) := by
  obtain ⟨ht, hash, hobj⟩ := h
  refine ⟨key.addr, hash, string_value ht, hobj, ?_⟩
  have hhash : hashValue w key = .ok hash := by
    rw [hashValue]
    simp only [ht, hobj, Outcome.ok_bind]
    rfl
  rw [globalKey, hkey, Outcome.ofOption_some, Outcome.ok_bind, ht, hhash]
  rfl

theorem globalError_name {α : Type} {a : ObjAddr} {hash : BitVec 32} (hsym : 0#8 ∉ sym)
    (hs : w.Strung U) (hobj : w.object a = .ok (.string hash (sym ++ [0#8]))) (msg : String) :
    (globalError w msg (objValue .string a) : Outcome α) = .raise (msg ++ ": " ++ sym.text) := by
  rw [globalError, addr_objValue (hs.addr_lt hobj), hobj, Outcome.ok_bind]
  dsimp only
  rw [bytesText_name hsym]

/-- The value of a global that is not bound in a scope. -/
def lookupGlobal (γ : Globals) (sym : Atom) : Outcome SVal :=
  match γ.lookup sym with
  | some x => .ok x
  | none => .raise ("Can't access global variable: " ++ sym.text)

/-- `OP_GETGLOBAL` gets what was defined, or says that nothing was. -/
theorem getGlobal_rel (hs : w.Strung U) (hd : Defines env U γ w) (hname : Names w func k sym) :
    Outcome.Rel (Rep env U w) (lookupGlobal γ sym) (getGlobal w func k) := by
  obtain ⟨hnul, hsym, key, hconst, hden⟩ := hname
  obtain ⟨a, hash, rfl, hobj, hkey⟩ := globalKey_name hden hconst
  obtain ⟨-, m, g, hm, hr, -, hall⟩ := hd
  have hthis := hall a hash sym hobj hsym
  rw [getGlobal, hkey, Outcome.ok_bind]
  dsimp only
  rw [hm, Outcome.ok_bind, lookupGlobal]
  cases hlook : γ.lookup sym with
  | some x =>
      rw [hlook] at hthis
      obtain ⟨v, hv, hrep⟩ := hthis
      rw [hv, Outcome.ok_bind, if_neg hrep.type_ne_inv]
      exact .ok hrep
  | none =>
      rw [hlook] at hthis
      have hget : mapGet m (objValue .string a) hash = .ok ⟨.inv, 0#64⟩ := by
        rw [mapGet, hr.find_none.mpr hthis]
        rfl
      rw [hget, Outcome.ok_bind, if_pos rfl, globalError_name hnul hs hobj]
      exact .raise _

/-- A new name is put into the map, or `_G`, which is no name of a program. -/
theorem Defines.insert (γ' : Globals) (hs : w.Strung U) (hd : Defines env U γ w) {a : ObjAddr}
    {hash : BitVec 32} {str : List Byte} (hobj : w.object a = .ok (.string hash str)) (v : Value)
    (hroom : w.Spare 1) (hold : ∀ sym, sym ++ [0#8] ≠ str → γ'.lookup sym = γ.lookup sym)
    (hnew : ∀ sym, sym ++ [0#8] = str → sym ≠ globalAtom →
      γ.lookup sym = none ∧ ∃ x, γ'.lookup sym = some x ∧ Rep env U w x v) :
    ∃ w', insertGlobal w (objValue .string a) hash v = .ok w' ∧ w.Remains w' ∧ w'.Strung U
      ∧ w'.objects.length ≤ w.objects.length + 1 ∧ w'.strings = w.strings
      ∧ Defines env U γ' w' ∧ ∀ m m', globalsMap w = .ok m → globalsMap w' = .ok m' →
        m'.cnt ≤ m.cnt + 1 := by
  obtain ⟨hnames, m, g, hm, hr, hkeys, hall⟩ := hd
  obtain ⟨w', m', hins, hrem, hs', hobjects, hstrings, hm', hr', hcnt, hfresh, hothers⟩ :=
    insertGlobal_ok hs hm hr hkeys hobj v hroom
  have hobj' := hrem _ (.string ..) trivial hobj
  refine ⟨w', hins, hrem, hs', hobjects, hstrings, ⟨fun sym x hx => ?_, m', _, hm', hr',
    (hkeys.insert hobj v).remains hrem, fun b hash' sym hb hsym => ?_⟩, fun m₁ m₁' h₁ h₁' => ?_⟩
  · by_cases hstr : sym ++ [0#8] = str
    · exact ⟨a, hash, hstr ▸ hobj'⟩
    · rw [hold sym hstr] at hx
      obtain ⟨b, hash', hb⟩ := hnames sym x hx
      exact ⟨b, hash', hrem _ (.string ..) trivial hb⟩
  · by_cases hstr : sym ++ [0#8] = str
    · subst hstr
      obtain ⟨hnone, x, hx, hrep⟩ := hnew sym rfl hsym
      obtain rfl := hs'.same hb hobj'
      rw [hb] at hobj'
      cases hobj'
      have habsent := hall b _ sym hobj hsym
      rw [hnone] at habsent
      rw [hx]
      exact ⟨v, hfresh habsent, hrep.remains hrem⟩
    · have hne : mapKey hash' (objValue .string b) ≠ mapKey hash (objValue .string a) := by
        intro heq
        obtain ⟨rfl, rfl⟩ := (objValue_key (hs'.addr_lt hb) (hs'.addr_lt hobj')).mp heq
        rw [hb] at hobj'
        exact hstr (Obj.string.inj (Outcome.ok.inj hobj')).2
      rw [hold sym hstr]
      cases hlook : γ.lookup sym with
      | some x =>
          obtain ⟨c, hash₂, hc⟩ := hnames sym x hlook
          have hc' := hrem _ (.string ..) trivial hc
          obtain rfl := hs'.same hc' hb
          rw [hb] at hc'
          cases hc'
          have hfound := hall _ _ sym hc hsym
          rw [hlook] at hfound
          obtain ⟨u, hu, hrep⟩ := hfound
          exact ⟨u, (hothers _ _ hne).trans hu, hrep.remains hrem⟩
      | none =>
          intro hmem
          rcases Finmap.mem_insert.mp hmem with heq | hmem
          · exact hne heq
          · obtain ⟨c, hash₂, t, hc, hkey⟩ := hkeys _ hmem
            have hc' := hrem _ (.string ..) trivial hc
            obtain ⟨rfl, rfl⟩ := (objValue_key (hs'.addr_lt hb) (hs.addr_lt hc)).mp hkey
            rw [hb] at hc'
            cases hc'
            have habsent := hall _ _ sym hc hsym
            rw [hlook] at habsent
            exact habsent hmem
  · rw [hm] at h₁
    rw [hm'] at h₁'
    cases h₁
    cases h₁'
    exact hcnt

theorem Defines.hasMap (hd : Defines env U γ w) : ∃ m, globalsMap w = .ok m :=
  hd.map.imp fun _ h => h.choose_spec.1

/-- The reference to all globals is put under `_G`. -/
theorem updateGlobalRef_ok (hU : Hashed U) (hG : globalName ∈ U) (hs : w.Strung U)
    (hd : Defines env U γ w) (hroom : w.Spare 3) :
    ∃ w', updateGlobalRef w = .ok w' ∧ w.Remains w' ∧ w'.Strung U ∧ Defines env U γ w' := by
  obtain ⟨w1, key, hkey, hw1, ht, hobj⟩ := internString_goesOn hU hs hG (hroom.mono (by decide))
  have hroom1 : w1.Spare 2 := hroom.goesOn (m := 1) hw1 hd.hasMap
  have hd1 := hd.goesOn hs hw1
  obtain ⟨w2, halloc, hw2, -, -⟩ :=
    goesOn_alloc hw1.strung (o := .loc (objValue .map w1.globals)) nofun
      (hroom1.mono (by decide)).objects
  have hroom2 : w2.Spare 1 := hroom1.goesOn (m := 1) hw2 hd1.hasMap
  have hobj2 := hw2.remains _ (.string ..) trivial hobj
  have hhash : hashValue w2 key = .ok (murmur globalName 0) := by
    rw [hashValue]
    simp only [ht, hobj2, Outcome.ok_bind]
    rfl
  obtain ⟨w3, hins, hrem, hs3, -, -, hd3, -⟩ := (hd1.goesOn hw1.strung hw2).insert γ hw2.strung
    hobj2 (objValue .loc (w1.objects.length + 1)) hroom2 (fun _ _ => rfl) fun sym hsym hne =>
      absurd (List.append_cancel_right (show sym ++ [0#8] = globalAtom ++ [0#8] from hsym)) hne
  refine ⟨w3, ?_, hw1.remains.trans (hw2.remains.trans hrem), hs3, hd3⟩
  rw [updateGlobalRef, hkey, Outcome.ok_bind]
  dsimp only
  rw [halloc, Outcome.ok_bind]
  dsimp only
  rw [hhash, Outcome.ok_bind, string_value ht]
  exact hins

/-- The globals after a definition. -/
def extendGlobals (γ : Globals) (sym : Atom) (x : SVal) : Outcome Globals :=
  if (γ.lookup sym).isSome then .raise ("Redefinition of global variable: " ++ sym.text)
  else .ok ((sym, x) :: γ)

/-- `OP_SETGLOBAL` defines a global, or says that it was defined before. -/
theorem setGlobal_rel (hU : Hashed U) (hG : globalName ∈ U) (hs : w.Strung U)
    (hd : Defines env U γ w) (hname : Names w func k sym) {x : SVal} {v : Value}
    (hx : Rep env U w x v) (hroom : w.Spare 4) :
    Outcome.Rel (fun γ' w' => w.Remains w' ∧ w'.Strung U ∧ Defines env U γ' w')
      (extendGlobals γ sym x) (setGlobal w func k (.ok v)) := by
  obtain ⟨hnul, hsym, key, hconst, hden⟩ := hname
  obtain ⟨a, hash, rfl, hobj, hkey⟩ := globalKey_name hden hconst
  obtain ⟨m, g, hm, hr, -, hall⟩ := hd.map
  have hthis := hall a hash sym hobj hsym
  rw [setGlobal, hkey, Outcome.ok_bind]
  dsimp only
  rw [hm, Outcome.ok_bind, extendGlobals]
  cases hlook : γ.lookup sym with
  | some y =>
      rw [hlook] at hthis
      obtain ⟨u, hu, hrep⟩ := hthis
      rw [hu, Outcome.ok_bind, if_pos hrep.type_ne_inv, globalError_name hnul hs hobj]
      exact .raise _
  | none =>
      rw [hlook] at hthis
      have hget : mapGet m (objValue .string a) hash = .ok ⟨.inv, 0#64⟩ := by
        rw [mapGet, hr.find_none.mpr hthis]
        rfl
      obtain ⟨w1, hins, hrem, hs1, hobjects, hstrings, hd1, hcnt⟩ := hd.insert
        ((sym, x) :: γ) hs hobj v (hroom.mono (by decide))
        (fun t ht => by
          rw [List.lookup_cons, beq_eq_false_iff_ne.mpr fun h => ht (by rw [h])])
        fun t ht _ => by
          obtain rfl := List.append_cancel_right ht
          exact ⟨hlook, x, by simp, hx⟩
      have hroom1 : w1.Spare 3 := by
        refine ⟨?_, ?_, fun m' hm' => ?_⟩
        · rw [hstrings]
          have := hroom.strings
          omega
        · have := hroom.objects
          omega
        · have := hcnt m m' hm hm'
          have := hroom.globals m hm
          omega
      obtain ⟨w2, hupdate, hrem2, hs2, hd2⟩ := updateGlobalRef_ok hU hG hs1 hd1 hroom1
      rw [hget, Outcome.ok_bind, if_neg (by decide), Outcome.ok_bind, hins, Outcome.ok_bind,
        hupdate]
      exact .ok ⟨hrem.trans hrem2, hs2, hd2⟩

end Access

end Saurus
