import Saurus.Basis.Fuel
import Saurus.Macro.Rebuild
import Saurus.Vm.Load
import Saurus.Vm.SuCall

/-!
# What a macro returns

`su_load_call` runs the code of a macro and has `push_sexp` put the result on
the Lua stack, a sequence as a table for each pair. Where `push_sexp` finds a
value that Lua has none for, it takes off again what it has put there and
returns the type; `su_load_call` does not look at that and returns whatever is
on top, which is then the code it was called with. Lua's nil is never
returned for a macro that has come back (`su_load_call_iff`).

A C function has been promised 20 slots of the Lua stack, and `push_sexp`
takes two for each pair it is in without asking for more.
-/

namespace Saurus

open Basis Outcome

/-! ## The Lua stack -/

/-- A slot of the Lua stack: nil, the interpreter, a value, the key of a
field, or a table whose field 2 is not set yet. -/
inductive LuaSlot where
  | nil
  | userdata
  | value (x : LuaValue)
  | key (i : Nat)
  | fields (first : Option LuaValue)

/-- The Lua stack, from the top down. -/
abbrev LuaStack : Type := List LuaSlot

/-- Pushing on a stack of `cap` slots; nothing checks that there is one. -/
def luaPush (cap : Nat) (L : LuaStack) (x : LuaSlot) : Outcome LuaStack :=
  if L.length < cap then .ok (x :: L) else .fault

/-- `lua_settable(L, -3)` -/
def luaSettable : LuaStack → Outcome LuaStack
  | .value x :: .key 1 :: .fields none :: L => .ok (.fields (some x) :: L)
  | .value y :: .key 2 :: .fields (some x) :: L => .ok (.value (.table x y) :: L)
  | _ :: _ :: .value (.string _) :: _ => .raise "attempt to index a string value"
  | _ :: _ :: .key _ :: _ => .raise "attempt to index a number value"
  | _ => .fault

/-- `push_sexp` within `fuel` nested calls, with what it returns. -/
def pushSexpOn (junk : Nat → BitVec 64) (cap : Nat) :
    Nat → World → LuaStack → Value → Outcome (World × LuaStack × Nat)
  | 0, _, _, _ => .fault
  | fuel + 1, w, L, v =>
      match v.type with
      | .nil => do pure (w, ← luaPush cap L (.value .nilSubstitute), 0)
      | .number => do pure (w, ← luaPush cap L (.value (.number v.obj)), 0)
      | .boolean => do pure (w, ← luaPush cap L (.value (.boolean (objB v))), 0)
      | .string => do
          match ← w.object v.addr with
          | .string _ str => do
              let chars ← luaString str
              pure (w, ← luaPush cap L (.value (.string chars)), 0)
          | _ => .fault
      | .seq | .itSeq | .cellSeq => do
          let M ← luaPush cap L (.fields none)
          let M ← luaPush cap M (.key 1)
          let first ← seqFirst w v
          let (w, M, ret) ← pushSexpOn junk cap fuel w M first
          -- `lua_settop(L, top)` leaves the stack as it was given
          if ret ≠ 0 then pure (w, L, ret)
          else do
            let M ← luaSettable M
            let M ← luaPush cap M (.key 2)
            let (w, rest) ← seqRest junk w v
            let (w, M, ret) ← pushSexpOn junk cap fuel w M rest
            if ret ≠ 0 then pure (w, L, ret)
            else do pure (w, ← luaSettable M, 0)
      | type => pure (w, L, type.code)

/-- `su_load_call_wrp` once `su_call` is back: the state, and the Lua stack,
the top of which it returns. -/
def returnSexp (h : Host) (cap fuel : Nat) (s : Vm) (L : LuaStack) : Outcome (Vm × LuaStack) := do
  let v ← s.stk 1
  let (w, L, _) ← pushSexpOn h.junk cap fuel s.world L v
  let s ← { s with world := w }.pop 1
  pure (s, L)

/-! ## Lua forms -/

namespace LuaValue

/-- The slots that it takes to make the value. -/
def slots : LuaValue → Nat
  | .table first rest => max first.slots rest.slots + 2
  | _ => 1

/-- The objects that going through the value may make: new iterators. -/
def size : LuaValue → Nat
  | .table first rest => first.size + rest.size + 1
  | _ => 0

mutual

/-- The Lua form of a value: of nil, a number, a boolean, a string (which has a
last byte to leave out), or a sequence with a form for its first element and
its rest. -/
def Form (w : World) : LuaValue → Value → Prop
  | .nilSubstitute, v => v.type = .nil
  | .number n, v => v.type = .number ∧ v.obj = n
  | .boolean b, v => v.type = .boolean ∧ objB v = b
  | .string s, v => v.type = .string
      ∧ ∃ hash str, w.object v.addr = .ok (.string hash str) ∧ luaString str = .ok s
  | .table x y, v =>
      (v.type = .cellSeq ∧ ∃ first rest, w.object v.addr = .ok (.cell first rest)
        ∧ x.Form w first ∧ y.Form w rest)
      ∨ (v.type = .itSeq ∧ ∃ first rest, SeqOf w v (first :: rest) ∧ x.Form w first
        ∧ y.FormAll w rest)

/-- The Lua form of the sequence of these values. -/
def FormAll (w : World) : LuaValue → List Value → Prop
  | .nilSubstitute, vs => vs = []
  | .table x y, vs => ∃ first rest, vs = first :: rest ∧ x.Form w first ∧ y.FormAll w rest
  | _, _ => False

end

variable {w w' : World}

mutual

theorem Form.extends (hw : w.Extends w') : ∀ {x : LuaValue} {v : Value}, x.Form w v → x.Form w' v
  | .nilSubstitute, _, h => h
  | .number _, _, h => h
  | .boolean _, _, h => h
  | .string _, _, ⟨htype, hash, str, hobj, hstr⟩ => ⟨htype, hash, str, hw _ _ hobj, hstr⟩
  | .table _ _, _, .inl ⟨htype, first, rest, hobj, hx, hy⟩ =>
      .inl ⟨htype, first, rest, hw _ _ hobj, hx.extends hw, hy.extends hw⟩
  | .table _ _, _, .inr ⟨htype, first, rest, hseq, hx, hy⟩ =>
      .inr ⟨htype, first, rest, hseq.extends hw, hx.extends hw, FormAll.extends hw hy⟩

theorem FormAll.extends (hw : w.Extends w') : ∀ {x : LuaValue} {vs : List Value}, x.FormAll w vs →
    x.FormAll w' vs
  | .nilSubstitute, _, h => h
  | .table _ _, _, ⟨first, rest, hvs, hx, hy⟩ =>
      ⟨first, rest, hvs, hx.extends hw, FormAll.extends hw hy⟩

end

/-- A proper sequence has the form of its elements. -/
theorem FormAll.form : ∀ {x : LuaValue} {v : Value} {vs : List Value}, x.FormAll w vs →
    SeqOf w v vs → x.Form w v
  | .nilSubstitute, _, _, hvs, hseq => by
      obtain rfl := hvs
      exact hseq.type_nil
  | .table _ _, _, _, ⟨first, rest, hvs, hx, hy⟩, hseq => by
      subst hvs
      cases hseq with
      | cell htype hobj hrest => exact .inl ⟨htype, first, _, hobj, hx, hy.form hrest⟩
      | iterator htype hit hvec hr hi hys =>
          exact .inr ⟨htype, first, rest, .iterator htype hit hvec hr hi hys, hx, hy⟩

end LuaValue

open LuaValue

variable {junk : Nat → BitVec 64} {w w' : World}

theorem pushSexp_seq {v : Value} (hseq : v.type.suType = .seq) (fuel : Nat) :
    pushSexp junk (fuel + 1) w v = seqFirst w v >>= fun first =>
      pushSexp junk fuel w first >>= fun p =>
        match p with
        | (w, none) => pure (w, none)
        | (w, some x) => seqRest junk w v >>= fun r => pushSexp junk fuel r.1 r.2 >>= fun p =>
            match p with
            | (w, none) => pure (w, none)
            | (w, some y) => pure (w, some (.table x y)) := by
  rw [pushSexp]
  cases htype : v.type <;> first | rfl | (rw [htype] at hseq; cases hseq)

/-- One pair: the first element, and then the rest. -/
theorem pushSexp_pair {v first rest : Value} {x y : LuaValue} {w1 w2 w3 : World}
    (hseq : v.type.suType = .seq) (hfirst : seqFirst w v = .ok first)
    (hx : Settles (fun fuel => pushSexp junk fuel w first) (.ok (w1, some x)))
    (hrest : seqRest junk w1 v = .ok (w2, rest))
    (hy : Settles (fun fuel => pushSexp junk fuel w2 rest) (.ok (w3, some y))) :
    Settles (fun fuel => pushSexp junk fuel w v) (.ok (w3, some (.table x y))) := by
  refine Settles.spend ?_ (pushSexp_seq hseq)
  rw [hfirst]
  refine hx.bind ?_
  simp only [hrest, ok_bind]
  exact hy.bind (settles_const _)

/-- A form is what `push_sexp` makes. -/
theorem LuaValue.Form.pushSexp (junk : Nat → BitVec 64) : ∀ {x : LuaValue} {w : World}
    {v : Value}, x.Form w v → w.objects.length + x.size < 2 ^ 64 →
    ∃ w', Settles (fun fuel => pushSexp junk fuel w v) (.ok (w', some x)) ∧ w.Extends w'
      ∧ w'.objects.length ≤ w.objects.length + x.size
  | .nilSubstitute, w, v, htype, _ => by
      refine ⟨w, Settles.spend (settles_const _) fun fuel => ?_, .rfl, Nat.le_refl _⟩
      rw [Saurus.pushSexp, show v.type = .nil from htype]
      rfl
  | .number n, w, v, ⟨htype, hobj⟩, _ => by
      refine ⟨w, Settles.spend (settles_const _) fun fuel => ?_, .rfl, Nat.le_refl _⟩
      rw [Saurus.pushSexp, htype, ← hobj]
      rfl
  | .boolean b, w, v, ⟨htype, hobj⟩, _ => by
      refine ⟨w, Settles.spend (settles_const _) fun fuel => ?_, .rfl, Nat.le_refl _⟩
      rw [Saurus.pushSexp, htype, ← hobj]
      rfl
  | .string s, w, v, ⟨htype, hash, str, hobj, hstr⟩, _ => by
      refine ⟨w, Settles.spend (settles_const _) fun fuel => ?_, .rfl, Nat.le_refl _⟩
      rw [Saurus.pushSexp, htype]
      simp only [hobj, ok_bind, hstr]
      rfl
  | .table x y, w, v, .inl ⟨htype, first, rest, hobj, hx, hy⟩, hmem => by
      rw [LuaValue.size] at hmem
      obtain ⟨w1, hrun1, hw1, hlen1⟩ := hx.pushSexp junk (by omega)
      obtain ⟨w2, hrun2, hw2, hlen2⟩ := (hy.extends hw1).pushSexp junk (by omega)
      have hfirst : seqFirst w v = .ok first := by
        rw [seqFirst, hobj]
        rfl
      have hrest : seqRest junk w1 v = .ok (w1, rest) := by
        rw [seqRest, hw1 _ _ hobj]
        rfl
      refine ⟨w2, pushSexp_pair (by rw [htype]; rfl) hfirst hrun1 hrest hrun2, hw1.trans hw2, ?_⟩
      rw [LuaValue.size]
      omega
  | .table x y, w, v, .inr ⟨htype, first, rest, hseq, hx, hy⟩, hmem => by
      rw [LuaValue.size] at hmem
      obtain ⟨w1, hrun1, hw1, hlen1⟩ := hx.pushSexp junk (by omega)
      obtain ⟨w2, r, hrest, hw2, hlen2, hseq2⟩ := (hseq.extends hw1).rest junk (by omega)
      have hform := (FormAll.extends (hw1.trans hw2) hy).form hseq2
      obtain ⟨w3, hrun3, hw3, hlen3⟩ := hform.pushSexp junk (by omega)
      refine ⟨w3, pushSexp_pair hseq.type_seq hseq.first hrun1 hrest hrun3,
        (hw1.trans hw2).trans hw3, ?_⟩
      rw [LuaValue.size]
      omega

/-! ## `push_sexp` on the stack -/

theorem luaPush_ok {cap : Nat} {L : LuaStack} (h : L.length < cap) (x : LuaSlot) :
    luaPush cap L x = .ok (x :: L) := if_pos h

theorem luaPush_eq_ok {cap : Nat} {L M : LuaStack} {x : LuaSlot} :
    luaPush cap L x = .ok M ↔ L.length < cap ∧ M = x :: L := by
  rw [luaPush]
  split
  · rename_i h
    simp [h, eq_comm]
  · rename_i h
    simp [h]

theorem pushSexpOn_seq {cap : Nat} {v : Value} (hseq : v.type.suType = .seq) (fuel : Nat)
    (L : LuaStack) :
    pushSexpOn junk cap (fuel + 1) w L v = luaPush cap L (.fields none) >>= fun M =>
      luaPush cap M (.key 1) >>= fun M => seqFirst w v >>= fun first =>
        pushSexpOn junk cap fuel w M first >>= fun r =>
          if r.2.2 ≠ 0 then pure (r.1, L, r.2.2)
          else luaSettable r.2.1 >>= fun M => luaPush cap M (.key 2) >>= fun M =>
            seqRest junk r.1 v >>= fun rest => pushSexpOn junk cap fuel rest.1 M rest.2 >>= fun r =>
              if r.2.2 ≠ 0 then pure (r.1, L, r.2.2)
              else luaSettable r.2.1 >>= fun M => pure (r.1, M, 0) := by
  rw [pushSexpOn]
  cases htype : v.type <;> first | rfl | (rw [htype] at hseq; cases hseq)

/-- `push_sexp` pushes a value, goes through a pair, or leaves the stack alone
and has no value. -/
theorem push_cases (junk : Nat → BitVec 64) (cap : Nat) (w : World) (v : Value) :
    (∃ x : LuaValue, x.slots = 1 ∧ (∀ fuel, pushSexp junk (fuel + 1) w v = .ok (w, some x))
      ∧ ∀ fuel L, pushSexpOn junk cap (fuel + 1) w L v
        = luaPush cap L (.value x) >>= fun M => pure (w, M, 0))
    ∨ v.type.suType = .seq
    ∨ (∀ fuel w' x, pushSexp junk (fuel + 1) w v ≠ .ok (w', some x))
      ∧ ∀ fuel L w' M ret, pushSexpOn junk cap (fuel + 1) w L v = .ok (w', M, ret) →
        M = L ∧ pushSexp junk (fuel + 1) w v = .ok (w', none) := by
  cases htype : v.type
  case nil => exact .inl ⟨.nilSubstitute, rfl, fun _ => by rw [pushSexp, htype]; rfl,
    fun _ _ => by rw [pushSexpOn, htype]⟩
  case number => exact .inl ⟨.number v.obj, rfl, fun _ => by rw [pushSexp, htype]; rfl,
    fun _ _ => by rw [pushSexpOn, htype]⟩
  case boolean => exact .inl ⟨.boolean (objB v), rfl, fun _ => by rw [pushSexp, htype]; rfl,
    fun _ _ => by rw [pushSexpOn, htype]⟩
  case string =>
    by_cases hstr : ∃ hash str s, w.object v.addr = .ok (.string hash str) ∧ luaString str = .ok s
    · obtain ⟨hash, str, s, hobj, hs⟩ := hstr
      refine .inl ⟨.string s, rfl, fun fuel => ?_, fun fuel L => ?_⟩
      · rw [pushSexp, htype]
        simp only [hobj, ok_bind, hs]
        rfl
      · rw [pushSexpOn, htype]
        simp only [hobj, ok_bind, hs]
    · have hnone : ∀ {α : Type} {k : List Byte → Outcome α} {a : α},
          (w.object v.addr >>= fun o => match o with
            | .string _ str => luaString str >>= k
            | _ => .fault) ≠ .ok a := by
        intro α k a h
        obtain ⟨o, hobj, h⟩ := bind_eq_ok.mp h
        cases o with
        | string hash str =>
            obtain ⟨s, hs, -⟩ := bind_eq_ok.mp h
            exact hstr ⟨hash, str, s, hobj, hs⟩
        | _ => cases h
      refine .inr (.inr ⟨fun fuel w' x h => ?_, fun fuel L w' M ret h => ?_⟩)
      · rw [pushSexp, htype] at h
        exact hnone h
      · rw [pushSexpOn, htype] at h
        exact absurd h hnone
  case seq => exact .inr (.inl rfl)
  case itSeq => exact .inr (.inl rfl)
  case cellSeq => exact .inr (.inl rfl)
  all_goals
    refine .inr (.inr ⟨fun fuel w' x h => ?_, fun fuel L w' M ret h => ?_⟩)
    · rw [pushSexp, htype] at h
      cases h
    · rw [pushSexpOn, htype] at h
      cases h
      exact ⟨rfl, by rw [pushSexp, htype]; rfl⟩

/-- Where there is room `push_sexp` leaves the value on top of the stack. -/
theorem pushSexpOn_of_some {cap : Nat} : ∀ {fuel : Nat} {w w' : World} {v : Value} {x : LuaValue}
    {L : LuaStack}, pushSexp junk fuel w v = .ok (w', some x) → L.length + x.slots ≤ cap →
    pushSexpOn junk cap fuel w L v = .ok (w', .value x :: L, 0)
  | 0, _, _, _, _, _, h, _ => nomatch h
  | fuel + 1, w, w', v, x, L, h, hcap => by
      rcases push_cases junk cap w v with ⟨y, hslots, hpush, hon⟩ | hseq | ⟨hnone, -⟩
      · rw [hpush] at h
        cases h
        rw [hon, luaPush_ok (by omega)]
        rfl
      · rw [pushSexp_seq hseq] at h
        obtain ⟨first, hfirst, h⟩ := bind_eq_ok.mp h
        obtain ⟨⟨w1, o⟩, hx, h⟩ := bind_eq_ok.mp h
        cases o with
        | none => cases h
        | some x1 =>
            obtain ⟨⟨w2, rest⟩, hrest, h⟩ := bind_eq_ok.mp h
            obtain ⟨⟨w3, o⟩, hy, h⟩ := bind_eq_ok.mp h
            cases o with
            | none => cases h
            | some y1 =>
                cases h
                rw [slots] at hcap
                have hrun1 : pushSexpOn junk cap fuel w (.key 1 :: .fields none :: L) first
                    = .ok (w1, .value x1 :: .key 1 :: .fields none :: L, 0) :=
                  pushSexpOn_of_some hx (by simp only [List.length_cons]; omega)
                have hrun2 : pushSexpOn junk cap fuel w2 (.key 2 :: .fields (some x1) :: L) rest
                    = .ok (w', .value y1 :: .key 2 :: .fields (some x1) :: L, 0) :=
                  pushSexpOn_of_some hy (by simp only [List.length_cons]; omega)
                have hset1 : luaSettable (.value x1 :: .key 1 :: .fields none :: L)
                    = .ok (.fields (some x1) :: L) := rfl
                have hset2 : luaSettable (.value y1 :: .key 2 :: .fields (some x1) :: L)
                    = .ok (.value (.table x1 y1) :: L) := rfl
                rw [pushSexpOn_seq hseq, luaPush_ok (by omega), ok_bind,
                  luaPush_ok (by simp only [List.length_cons]; omega), ok_bind, hfirst, ok_bind,
                  hrun1, ok_bind, if_neg (not_not.mpr rfl), hset1, ok_bind,
                  luaPush_ok (by simp only [List.length_cons]; omega), ok_bind, hrest, ok_bind,
                  hrun2, ok_bind, if_neg (not_not.mpr rfl), hset2, ok_bind]
                rfl
      · exact absurd h (hnone _ _ _)

/-- A key that nothing was pushed on. -/
theorem luaSettable_key (i : Nat) (x : LuaSlot) (L M : LuaStack) :
    luaSettable (.key i :: x :: L) ≠ .ok M := by
  intro h
  rcases L with _ | ⟨y, L⟩
  · cases h
  · cases y with
    | value y => cases y <;> cases h
    | _ => cases h

/-- What `push_sexp` has done when it is back: it has pushed a value, or there
is none for what it was given and the stack is as it was. -/
theorem pushSexpOn_cases {cap : Nat} : ∀ {fuel : Nat} {w w' : World} {v : Value}
    {L M : LuaStack} {ret : Nat}, pushSexpOn junk cap fuel w L v = .ok (w', M, ret) →
    (∃ x : LuaValue, M = .value x :: L ∧ ret = 0 ∧ L.length + x.slots ≤ cap
        ∧ pushSexp junk fuel w v = .ok (w', some x))
      ∨ M = L ∧ pushSexp junk fuel w v = .ok (w', none)
  | 0, _, _, _, _, _, _, h => nomatch h
  | fuel + 1, w, w', v, L, M, ret, h => by
      rcases push_cases junk cap w v with ⟨y, hslots, hpush, hon⟩ | hseq | ⟨-, hnone⟩
      · rw [hon] at h
        obtain ⟨M', hM', h⟩ := bind_eq_ok.mp h
        obtain ⟨hroom, rfl⟩ := luaPush_eq_ok.mp hM'
        cases h
        exact .inl ⟨y, rfl, rfl, by omega, hpush fuel⟩
      · rw [pushSexpOn_seq hseq] at h
        obtain ⟨M1, hM1, h⟩ := bind_eq_ok.mp h
        obtain ⟨hroom1, rfl⟩ := luaPush_eq_ok.mp hM1
        obtain ⟨M2, hM2, h⟩ := bind_eq_ok.mp h
        obtain ⟨hroom2, rfl⟩ := luaPush_eq_ok.mp hM2
        obtain ⟨first, hfirst, h⟩ := bind_eq_ok.mp h
        obtain ⟨⟨w1, M3, ret1⟩, hx, h⟩ := bind_eq_ok.mp h
        rw [pushSexp_seq hseq, hfirst, ok_bind]
        rcases pushSexpOn_cases hx with ⟨x, rfl, rfl, hcap1, hpush1⟩ | ⟨rfl, hpush1⟩
        · obtain ⟨M4, hM4, h⟩ := bind_eq_ok.mp ((if_neg (not_not.mpr rfl)).symm.trans h)
          obtain rfl : M4 = .fields (some x) :: L := (Outcome.ok.inj hM4).symm
          obtain ⟨M5, hM5, h⟩ := bind_eq_ok.mp h
          obtain ⟨hroom5, rfl⟩ := luaPush_eq_ok.mp hM5
          obtain ⟨⟨w2, rest⟩, hrest, h⟩ := bind_eq_ok.mp h
          obtain ⟨⟨w3, M6, ret2⟩, hy, h⟩ := bind_eq_ok.mp h
          rw [hpush1, ok_bind]
          dsimp only at hrest hy h ⊢
          rw [hrest, ok_bind]
          rcases pushSexpOn_cases hy with ⟨y, rfl, rfl, hcap2, hpush2⟩ | ⟨rfl, hpush2⟩
          · cases h
            rw [hpush2]
            simp only [List.length_cons] at hcap1 hcap2
            exact .inl ⟨.table x y, rfl, rfl, by rw [slots]; omega, rfl⟩
          · rw [hpush2]
            by_cases hret : ret2 = 0
            · rw [if_neg (not_not.mpr hret)] at h
              obtain ⟨M7, hM7, -⟩ := bind_eq_ok.mp h
              exact absurd hM7 (luaSettable_key _ _ _ _)
            · rw [if_pos hret] at h
              cases h
              exact .inr ⟨rfl, rfl⟩
        · rw [hpush1, ok_bind]
          by_cases hret : ret1 = 0
          · rw [if_neg (not_not.mpr hret)] at h
            obtain ⟨M4, hM4, -⟩ := bind_eq_ok.mp h
            exact absurd hM4 (luaSettable_key _ _ _ _)
          · rw [if_pos hret] at h
            cases h
            exact .inr ⟨rfl, rfl⟩
      · exact .inr (hnone _ _ _ _ _ h)

/-! ## `su_load_call` -/

/-- Loading the code and calling it: the macro has come back with `v`. -/
def MacroReturns (h : Host) (natives : BitVec 64 → NativeBody) (junk : Load.HeaderJunk)
    (code : List Byte) (s s' : Cpu) (v : Value) : Prop :=
  ∃ s1 s2 obj r, suLoad h junk ⟨[], [code]⟩ s.toVm = .ok (0, s1)
    ∧ s1.pushValue ⟨.nil, obj⟩ = .ok s2
    ∧ Runs h natives True (.suCall 1 1) { s with toVm := s2 } s' r ∧ s'.toVm.stk 1 = .ok v

/-- What Lua is given for a value, or nil. -/
def LuaSlot.ofOption : Option LuaValue → LuaSlot
  | none => .nil
  | some x => .value x

/-- The macro's value `v` is reported: `su_load_call` returns its Lua form, or
nil if it has none, `gen_macro_expansion` fails in that case only, and the
stack of the interpreter is as high as before. -/
def Reported (h : Host) (cap : Nat) (code : List Byte) (L : LuaStack) (name : Atom) (line : Nat)
    (s s' : Cpu) (v : Value) : Prop :=
  ∃ s2 x M, Settles (fun fuel => returnSexp h cap fuel s'.toVm (.value (.string code) :: L))
      (.ok (s2, .ofOption x :: M))
    ∧ (∀ y : LuaValue, x = some y ↔ y.Form s'.world v)
    ∧ (macroResult name line x = .error (noMacroMsg line) ↔ ∀ y : LuaValue, ¬ y.Form s'.world v)
    ∧ s2.stackTop = s.stackTop

section LoadCall

variable {h : Host} {natives : BitVec 64 → NativeBody} {hjunk : Load.HeaderJunk}
  {code : List Byte} {s s' : Cpu} {v : Value}

/-- A program that is loaded is a function on top of the stack. -/
theorem suLoad_pushes {st : ReaderBuffer} {s s1 : Vm} (hload : suLoad h hjunk st s = .ok (0, s1)) :
    s1.stackTop = s.stackTop + 1 ∧ (s1.stack s.stackTop).type = .function := by
  unfold suLoad at hload
  split at hload
  · cases hload
  · split at hload
    · cases hload
    · cases hload
    · obtain ⟨⟨w, f⟩, hlambda, hload⟩ := bind_eq_ok.mp hload
      obtain ⟨s2, hpush, hload⟩ := bind_eq_ok.mp hload
      cases hload
      obtain ⟨⟨w1, vs⟩, -, hlambda⟩ := bind_eq_ok.mp hlambda
      obtain ⟨us, -, hlambda⟩ := bind_eq_ok.mp hlambda
      obtain ⟨⟨w2, a⟩, -, hlambda⟩ := bind_eq_ok.mp hlambda
      cases hlambda
      obtain ⟨_, -, hpush⟩ := bind_eq_ok.mp hpush
      cases hpush
      refine ⟨rfl, ?_⟩
      dsimp only
      rw [Function.update_self]
      rfl

/-- `su_call` leaves the value of the macro where the function was. -/
theorem MacroReturns.stackTop (hret : MacroReturns h natives hjunk code s s' v) :
    s'.stackTop = s.stackTop + 1 := by
  obtain ⟨s1, s2, obj, r, hload, hpush, hrun, -⟩ := hret
  obtain ⟨htop, htype⟩ := suLoad_pushes hload
  obtain ⟨_, -, hpush⟩ := bind_eq_ok.mp hpush
  cases hpush
  cases hrun with
  | closure henter hloop hafter =>
      obtain ⟨hin, -⟩ := suEnter_inLoop henter
      obtain ⟨-, -, hloop, -⟩ := hloop.leaves hin
      have hback := afterLoop_stackTop hafter (Nat.le_refl 1) hloop
      dsimp only at hback
      change _ = s.stackTop + 1
      rw [Cpu.leave, Vm.suLeave]
      dsimp only
      omega
  | direct _ _ hnative =>
      -- what was loaded is no native
      dsimp only at hnative
      have hslot : s1.stackTop + 1 - (1 + 1) = s.stackTop := by omega
      rw [hslot, Function.update_of_ne (by omega), htype] at hnative
      cases hnative

/-- `push_sexp` on the result, and the pop after it. -/
theorem returnSexp_eq {cap fuel : Nat} {L : LuaStack} {s : Vm} {v : Value} (hv : s.stk 1 = .ok v)
    (htop : 1 ≤ s.stackTop) :
    returnSexp h cap fuel s L = pushSexpOn h.junk cap fuel s.world L v >>= fun r =>
      pure ({ s with world := r.1, stackTop := s.stackTop - 1 }, r.2.1) := by
  rw [returnSexp, hv, ok_bind]
  refine bind_congr fun ⟨w, M, _⟩ => ?_
  dsimp only
  rw [Vm.pop, decide_eq_true (show 1 ≤ s.stackTop from htop)]
  rfl

/-- **Which results of a macro are reported**: those with a Lua form, as far as
there are slots for it on the Lua stack, and other than `false`. -/
theorem su_load_call_iff {cap : Nat} {L : LuaStack} {name : Atom} {line : Nat}
    (hret : MacroReturns h natives hjunk code s s' v)
    (hmem : ∀ x : LuaValue, x.Form s'.world v → s'.world.objects.length + x.size < 2 ^ 64) :
    Reported h cap code L name line s s' v
      ↔ ∃ x : LuaValue, x.Form s'.world v ∧ L.length + 1 + x.slots ≤ cap ∧ x ≠ .boolean false := by
  have htop := hret.stackTop
  obtain ⟨-, -, -, -, -, -, -, hv⟩ := hret
  have hrun : ∀ fuel, returnSexp h cap fuel s'.toVm (.value (.string code) :: L)
      = pushSexpOn h.junk cap fuel s'.world (.value (.string code) :: L) v >>= fun r =>
        pure ({ s'.toVm with world := r.1, stackTop := s.stackTop }, r.2.1) := by
    intro fuel
    rw [returnSexp_eq hv (by omega), htop, Nat.add_sub_cancel]
  constructor
  · rintro ⟨s2, o, M, ⟨m, hset⟩, hform, hfails, -⟩
    have hback : ∀ fuel, m ≤ fuel → ∃ w N ret, pushSexpOn h.junk cap fuel s'.world
        (.value (.string code) :: L) v = .ok (w, N, ret) ∧ N = LuaSlot.ofOption o :: M := by
      intro fuel hfuel
      obtain ⟨⟨w, N, ret⟩, hon, hpair⟩ := bind_eq_ok.mp ((hrun fuel).symm.trans (hset fuel hfuel))
      exact ⟨w, N, ret, hon, (Prod.mk.inj (Outcome.ok.inj hpair)).2⟩
    by_cases hex : ∃ x : LuaValue, x.Form s'.world v
    · obtain ⟨x, hx⟩ := hex
      obtain ⟨w, ⟨n, hpush⟩, -, -⟩ := hx.pushSexp h.junk (hmem x hx)
      have hpush := hpush (max m n) (Nat.le_max_right ..)
      obtain ⟨w', N, ret, hon, -⟩ := hback (max m n) (Nat.le_max_left ..)
      refine ⟨x, hx, ?_, ?_⟩
      · rcases pushSexpOn_cases hon with ⟨y, -, -, hcap, hsome⟩ | ⟨-, hnone⟩
        · cases hpush.symm.trans hsome
          exact hcap
        · cases hpush.symm.trans hnone
      · rintro rfl
        obtain rfl := (hform _).mpr hx
        exact hfails.mp rfl _ hx
    · have ho : o = none := by
        cases o with
        | none => rfl
        | some x => exact absurd ⟨x, (hform x).mp rfl⟩ hex
      subst ho
      obtain ⟨w', N, ret, hon, rfl⟩ := hback m (Nat.le_refl m)
      -- what is on top is a value: another one, or the code
      rcases pushSexpOn_cases hon with ⟨y, hN, -⟩ | ⟨hN, -⟩ <;> cases hN
  · rintro ⟨x, hx, hcap, hfalse⟩
    obtain ⟨w, ⟨n, hpush⟩, -, -⟩ := hx.pushSexp h.junk (hmem x hx)
    have honly : ∀ y : LuaValue, y.Form s'.world v → y = x := by
      intro y hy
      obtain ⟨w', ⟨n', hpush'⟩, -, -⟩ := hy.pushSexp h.junk (hmem y hy)
      cases (hpush' (max n n') (Nat.le_max_right ..)).symm.trans (hpush _ (Nat.le_max_left ..))
      rfl
    refine ⟨{ s'.toVm with world := w, stackTop := s.stackTop }, some x,
      .value (.string code) :: L, ⟨n, fun fuel hfuel => ?_⟩, fun y => ?_, ?_, rfl⟩
    · dsimp only
      rw [hrun, pushSexpOn_of_some (hpush fuel hfuel) hcap]
      rfl
    · refine ⟨fun heq => ?_, fun hy => (honly y hy).symm ▸ rfl⟩
      cases heq
      exact hx
    · refine iff_of_false ?_ fun hno => hno x hx
      have hresult : macroResult name line (some x) = recreateAst name line x := by
        cases x with
        | boolean b =>
            cases b with
            | false => exact absurd rfl hfalse
            | true => rfl
        | _ => rfl
      rw [hresult]
      exact recreateAst_ne_noMacro name line x

end LoadCall

/-! ## Two macros -/

/-- A program of one instruction and a return. -/
def oneStep (op : Op) (constants : List ProtoConst) : Proto :=
  .mk [⟨BitVec.ofNat 8 op.code, 0#8, 0#16⟩, ⟨BitVec.ofNat 8 Op.return.code, 0#8, 0#16⟩] constants
    [] [] [] []

/-- The code of a program, as it is given to `su_load_call`. -/
def Proto.code (p : Proto) : List Byte := headerBytes versionMajor versionMinor ++ p.bytes

/-- The interpreter of the macros, just started. -/
def macroCpu : Cpu := ⟨emptyVm, 0, none, 0⟩

/-- `vm_loop` has `n` values above the function that was loaded. -/
def macroLoop (p : Proto) (constants : List Value) (n pc : Nat) (stack : Nat → Value) : Cpu where
  world := ⟨[.function ⟨-1, p, constants, []⟩], mapCreateEmpty, 0, 0, 0⟩
  stack := stack
  stackTop := n + 1
  frames := Function.update emptyVm.frames 0 ⟨⟨-1, p, constants, []⟩, 0, 0xffff⟩
  frameTop := 1
  func := ⟨-1, p, constants, []⟩
  pc := pc
  narg := 1
  prot := some p
  frame := 1

section OneStep

variable {op : Op} {consts : List ProtoConst} {cs : List Value} {st st' : Nat → Value}

theorem fetch_oneStep (n : Nat) :
    (macroLoop (oneStep op consts) cs n 0 st).toVm.fetch = .ok (op, 0, 0) := by
  cases op <;> rfl

theorem fetch_return (n : Nat) :
    (macroLoop (oneStep op consts) cs n 1 st).toVm.fetch = .ok (.return, 0, 0) := rfl

/-- A turn on an instruction that is known, and no call. -/
theorem Runs.turn_of_fetch {h : Host} {level base a : Nat} {b : Int} {s s' : Cpu} {s1 : Vm}
    {r : Report} (hfetch : s.toVm.fetch = .ok (op, a, b)) (hop : op ≠ .call ∧ op ≠ .tcall)
    (hlevel : level < s.frameTop) (hframe : s.frame = s.frameTop)
    (htakes : (s.frames (s.frameTop - 1)).stackTop + (op.effect a).1 ≤ s.stackTop)
    (hstep : s.toVm.step h = .ok s1)
    (hrest : Runs h natives True (.loop level base) (s.goes (s.frameAt s1) s1) s' r) :
    Runs h natives True (.loop level base) s s' r := by
  refine .turn (fun hhalted => ?_) (fun _ => ⟨hlevel, fun op' a' b' hf => ?_⟩)
    (fun _ _ _ _ _ => hframe) (fun s2 n hcalls => ?_) hstep hrest
  · obtain ⟨inst, hinst, -⟩ := bind_eq_ok.mp hfetch
    have hget := ofOption_eq_ok.mp hinst
    rw [List.getElem?_eq_none hhalted] at hget
    cases hget
  · cases hfetch.symm.trans hf
    exact htakes
  · cases hcalls with
    | call hf =>
        cases hfetch.symm.trans hf
        exact hop.1 rfl
    | tcall hf =>
        cases hfetch.symm.trans hf
        exact hop.2 rfl

/-- The loop over such a program, when its instruction has pushed a value. -/
theorem oneStep_run (natives : BitVec 64 → NativeBody) (hop : op ≠ .call ∧ op ≠ .tcall)
    (htakes : (op.effect 0).1 ≤ 2)
    (hstep : (macroLoop (oneStep op consts) cs 1 0 st).toVm.step idleHost
      = .ok (macroLoop (oneStep op consts) cs 2 1 st').toVm) :
    ∃ s' r, Runs idleHost natives True (.loop 0 0) (macroLoop (oneStep op consts) cs 1 0 st) s' r
      ∧ s'.stackTop = 1 ∧ s'.stack 0 = st' 2
      ∧ s'.world = (macroLoop (oneStep op consts) cs 1 0 st).world := by
  refine ⟨_, _, .turn_of_fetch (fetch_oneStep 1) hop Nat.one_pos rfl ?_ hstep
    (.turn_of_fetch (fetch_return 2) ⟨nofun, nofun⟩ Nat.one_pos rfl ?_ rfl
      (.halt ?_ fun _ => rfl)), rfl, rfl, rfl⟩
  · exact Nat.le_trans (Nat.add_le_add_left htakes 0) (Nat.le_refl 2)
  · exact Nat.le_succ_of_le (Nat.le_succ 1)
  · exact show 2 ≤ 0xffff by omega

/-- The program has been loaded, and its function entered. -/
def Enters (op : Op) (consts : List ProtoConst) (cs : List Value) (st : Nat → Value) : Prop :=
  ∃ s1 s2, suLoad idleHost zeroJunk ⟨[], [(oneStep op consts).code]⟩ emptyVm = .ok (0, s1)
    ∧ s1.pushValue ⟨.nil, 0#64⟩ = .ok s2 ∧ s2.stackTop = 2 ∧ s2.frameTop = 0
    ∧ s2.suEnter 1 = .ok (macroLoop (oneStep op consts) cs 1 0 st).toVm

/-- Such a macro comes back with the value. -/
theorem oneStep_returns (natives : BitVec 64 → NativeBody) (st' : Nat → Value)
    (henters : Enters op consts cs st) (hop : op ≠ .call ∧ op ≠ .tcall)
    (htakes : (op.effect 0).1 ≤ 2)
    (hstep : (macroLoop (oneStep op consts) cs 1 0 st).toVm.step idleHost
      = .ok (macroLoop (oneStep op consts) cs 2 1 st').toVm) :
    ∃ s', MacroReturns idleHost natives zeroJunk (oneStep op consts).code macroCpu s' (st' 2)
      ∧ s'.world = (macroLoop (oneStep op consts) cs 1 0 st).world := by
  obtain ⟨s1, s2, hload, hpush, htop, hlevel, henter⟩ := henters
  obtain ⟨s3, r, hrun, htop3, hstack3, hworld3⟩ := oneStep_run natives hop htakes hstep
  refine ⟨_, ⟨s1, s2, 0#64, r, hload, hpush, .closure henter ?_ rfl, ?_⟩, hworld3⟩
  · dsimp only
    rw [htop, hlevel]
    exact hrun
  · change Vm.stk { s3.toVm with func := s2.func, pc := s2.pc } 1 = _
    rw [Vm.stk]
    simp only [htop3, Nat.le_refl, decide_true, require_true, ok_bind, Nat.sub_self, hstack3]
    rfl

end OneStep

theorem enters_push : ∃ st, Enters .push [.number 7#64] [⟨.number, 7#64⟩] st :=
  ⟨_, _, _, rfl, rfl, rfl, rfl, rfl⟩

theorem enters_copy : ∃ st, Enters .copy [] [] st ∧ st 0 = objValue .function 1 :=
  ⟨_, ⟨_, _, rfl, rfl, rfl, rfl, rfl⟩, rfl⟩

/-- No natives are there to be called. -/
def noNatives : BitVec 64 → NativeBody := fun _ => .ret 0

/-- A macro that returns a number. -/
theorem number_reported : ∃ s', MacroReturns idleHost noNatives zeroJunk
      (oneStep .push [.number 7#64]).code macroCpu s' ⟨.number, 7#64⟩
    ∧ Reported idleHost 23 (oneStep .push [.number 7#64]).code
      [.value (.number 0x4048800000000000#64), .userdata] (atom ['m']) 1 macroCpu s'
      ⟨.number, 7#64⟩ := by
  obtain ⟨st, henters⟩ := enters_push
  obtain ⟨s', hret, hworld⟩ := oneStep_returns noNatives
    (Function.update st 2 ⟨.number, 7#64⟩) henters ⟨nofun, nofun⟩ (Nat.zero_le _) rfl
  rw [Function.update_self] at hret
  refine ⟨s', hret, (su_load_call_iff hret fun x hx => ?_).mpr
    ⟨.number 7#64, ⟨rfl, rfl⟩, ?_, nofun⟩⟩
  · cases x with
    | table y z =>
        rcases hx with ⟨htype, -⟩ | ⟨htype, -⟩ <;> cases htype
    | _ => simp [hworld, macroLoop, size]
  · simp [slots]

/-- For a macro that returns a function, `su_load_call` returns its code. -/
theorem function_not_reported : ∃ s', MacroReturns idleHost noNatives zeroJunk
      (oneStep .copy []).code macroCpu s' (objValue .function 1)
    ∧ (∀ fuel, ∃ s2, returnSexp idleHost 23 (fuel + 1) s'.toVm
        [.value (.string (oneStep .copy []).code), .value (.number 0x4044000000000000#64),
          .userdata]
      = .ok (s2, [.value (.string (oneStep .copy []).code),
        .value (.number 0x4044000000000000#64), .userdata]))
    ∧ ¬ Reported idleHost 23 (oneStep .copy []).code
      [.value (.number 0x4044000000000000#64), .userdata] (atom ['m']) 1 macroCpu s'
      (objValue .function 1) := by
  obtain ⟨st, henters, hst⟩ := enters_copy
  obtain ⟨s', hret, hworld⟩ := oneStep_returns noNatives (Function.update st 2 (st 0)) henters
    ⟨nofun, nofun⟩ (Nat.zero_le _) rfl
  rw [Function.update_self, hst] at hret
  have htop := hret.stackTop
  obtain ⟨-, -, -, -, -, -, -, hv⟩ := id hret
  have hrun : ∀ fuel L, returnSexp idleHost 23 (fuel + 1) s'.toVm L
      = .ok ({ s'.toVm with stackTop := s'.stackTop - 1 }, L) := by
    intro fuel L
    rw [returnSexp_eq hv (by omega), pushSexpOn]
    rfl
  refine ⟨s', hret, fun fuel => ⟨_, hrun fuel _⟩, ?_⟩
  rintro ⟨s2, o, M, ⟨n, hset⟩, hform, -⟩
  have hback := (hrun n _).symm.trans (hset (n + 1) (Nat.le_succ n))
  obtain ⟨-, hM⟩ := Prod.mk.inj (Outcome.ok.inj hback)
  cases o with
  | none => cases hM
  | some x =>
      cases hM
      obtain ⟨htype, -⟩ := (hform _).mp rfl
      cases htype

end Saurus
