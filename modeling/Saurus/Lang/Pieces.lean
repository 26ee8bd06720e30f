import Saurus.Lang.Layout
import Saurus.Lang.Turns

/-!
# Pieces of code and what they compute

A piece of the generator goes with a piece of the meaning of a program: what
it generates, run from where some values are on the stack, does what the
meaning says and leaves values in their place (`Computes`), or returns them
from the function where that is allowed (`Finishes`). Pieces are put together
as the generator does it (`Computes.bind`), so that the forms below are read
off both definitions at once.
-/

namespace Saurus

open Basis Basis.Codec

/-! ## Looking up -/

theorem lookup_findLable : ∀ (own : Bindings) (sym : Atom),
    own.reverse.lookup sym
      = (findLable (own.map Prod.fst) sym).bind fun i => own[i]?.map Prod.snd
  | [], _ => rfl
  | (name, x) :: own, sym => by
      have ih := lookup_findLable own sym
      rw [List.reverse_cons, List.lookup_append, List.map_cons, findLable, ih]
      cases hrest : findLable (own.map Prod.fst) sym with
      | some i =>
          have hi := findLable_lt hrest
          rw [List.length_map] at hi
          simp [List.getElem?_eq_getElem hi]
      | none =>
          by_cases heq : name = sym
          · subst heq
            simp
          · have hne : (sym == name) = false := beq_eq_false_iff_ne.mpr (Ne.symm heq)
            simp [List.lookup_cons, heq, hne]

/-- A symbol of a scope around the function is an upvalue with the value it is
bound to. -/
theorem findUp_scopesOf (sym : Atom) : ∀ (outer : List Bindings) (k : Nat),
    match findUp k (scopesOf outer) sym with
    | some (lv, idx) => k ≤ lv ∧ ∃ x, outer.findSome? (fun scope => scope.reverse.lookup sym)
        = some x ∧ (outer[lv - k]?.bind fun scope => scope[idx]?.map Prod.snd) = some x
    | none => outer.findSome? (fun scope => scope.reverse.lookup sym) = none
  | [], _ => rfl
  | scope :: outer, k => by
      have hlook := lookup_findLable scope sym
      rw [scopesOf, findUp]
      cases hown : findLable (scope.map Prod.fst) sym with
      | some idx =>
          have hi := findLable_lt hown
          rw [List.length_map] at hi
          rw [hown, Option.bind_some, List.getElem?_eq_getElem hi] at hlook
          refine ⟨Nat.le_refl _, scope[idx].2, ?_, ?_⟩
          · rw [List.findSome?_cons, hlook]
            rfl
          · rw [Nat.sub_self]
            simp [List.getElem?_eq_getElem hi]
      | none =>
          rw [hown] at hlook
          have ih := findUp_scopesOf sym outer (k + 1)
          rw [List.findSome?_cons, hlook]
          dsimp only [Option.bind_none]
          cases hup : findUp (k + 1) (scopesOf outer) sym with
          | some up =>
              obtain ⟨lv, idx⟩ := up
              rw [hup] at ih
              obtain ⟨hle, x, hx, hat⟩ := ih
              refine ⟨by omega, x, hx, ?_⟩
              rw [show lv - k = (lv - (k + 1)) + 1 by omega, List.getElem?_cons_succ]
              exact hat
          | none =>
              rw [hup] at ih
              exact ih

/-! ## Constants -/

theorem eq_zero_of_numIsZero {n : BitVec 64} (h : numIsZero n = true) (hn : n ≠ negativeZero) :
    n = 0#64 := by
  have habs : n &&& 0x7fffffffffffffff#64 = 0#64 := eq_of_beq h
  have hbit : ∀ i < 63, n.getLsbD i = false := fun i hi => by
    have hi' := congrArg (fun b : BitVec 64 => b.getLsbD i) habs
    have hmask : (0x7fffffffffffffff#64).getLsbD i = true := by
      rw [show 0x7fffffffffffffff#64 = BitVec.ofNat 64 (2 ^ 63 - 1) from rfl,
        BitVec.getLsbD_ofNat, Nat.testBit_two_pow_sub_one]
      simp [hi, Nat.lt_trans hi (by decide : 63 < 64)]
    simpa [hmask] using hi'
  cases htop : n.getLsbD 63 with
  | false =>
      refine BitVec.eq_of_getLsbD_eq fun i hi => ?_
      rw [BitVec.getLsbD_zero]
      by_cases h63 : i < 63
      · exact hbit i h63
      · obtain rfl : i = 63 := by omega
        exact htop
  | true =>
      refine absurd (BitVec.eq_of_getLsbD_eq fun i hi => ?_) hn
      rw [negativeZero, show 0x8000000000000000#64 = BitVec.ofNat 64 (2 ^ 63) from rfl,
        BitVec.getLsbD_ofNat]
      by_cases h63 : i < 63
      · rw [hbit i h63, Nat.testBit_two_pow_of_ne (by omega), Bool.and_false]
      · obtain rfl : i = 63 := by omega
        rw [htop, Nat.testBit_two_pow_self]
        rfl

/-- A constant that is taken for another is the same. -/
theorem constEq_eq {c c' : Const} (h : constEq c c' = true) (hc : c ≠ .number negativeZero)
    (hc' : c' ≠ .number negativeZero) : c = c' := by
  cases c with
  | string s =>
      cases c' with
      | string t => rw [eq_of_beq (show (s == t) = true from h)]
      | _ => cases h
  | boolean b =>
      cases c' with
      | boolean b' => rw [eq_of_beq (show (b == b') = true from h)]
      | _ => cases h
  | number m =>
      cases c' with
      | number n =>
          have h : numEq m n = true := h
          simp only [numEq, Bool.and_eq_true, Bool.or_eq_true, beq_iff_eq] at h
          obtain ⟨-, rfl | ⟨hm, hn⟩⟩ := h
          · rfl
          · rw [eq_zero_of_numIsZero hm fun heq => hc (heq ▸ rfl),
              eq_zero_of_numIsZero hn fun heq => hc' (heq ▸ rfl)]
      | _ => cases h

/-- A constant is found again where it was put. -/
theorem pushConst_placed {c : Const} {st st' : GenState} {k : Nat} {const : List Const}
    (h : pushConst c st = .ok (k, st')) (hplaced : st'.func.const <+: const)
    (hconst : .number negativeZero ∉ const) (hc : c ≠ .number negativeZero) :
    const[k]? = some c := by
  rcases pushConst_ok h with ⟨hfound, rfl⟩ | ⟨-, rfl, rfl⟩
  · obtain ⟨hk, heq, -⟩ := List.findIdx?_eq_some_iff_getElem.mp hfound
    have hget : const[k]? = some st'.func.const[k] := by
      rw [getElem?_prefix_eq hplaced hk, List.getElem?_eq_getElem hk]
    rw [hget, constEq_eq heq (fun hbad => hconst (hbad ▸ List.mem_of_getElem? hget)) hc]
  · rw [getElem?_prefix_eq hplaced (by simp)]
    exact List.getElem?_concat_length

/-! ## Pieces -/

/-- What the interpreter runs a program with. -/
structure Setting (d : Dialect) (env : GenEnv) (U : Set (List Byte)) : Prop where
  optTail : env.optTail = d.optTail
  noCalls : env.NoCalls
  hashed : Hashed U
  globalName : globalName ∈ U
  natives : ∀ p xs w f vs, w.Strung U → RepAll env U w xs vs → f.type = .nativefunc → f.obj = p →
    d.native p xs ≠ .fault → d.host.native p w (f :: vs) = .raise "Out of memory!" ∨
      Outcome.Rel (fun x r => (∃ n, w.GoesOn U r.world n)
          ∧ Rep env U r.world x (r.ret.getD ⟨.nil, (r.left 0).obj⟩))
        (d.native p xs) (d.host.native p w (f :: vs))

section Pieces

variable (d : Dialect) (env : GenEnv) (U : Set (List Byte)) (F : Func) (ρ : Env)

/-- With the values `xs` put on the stack, the code that `m` generates does
what `x` says, and `zs` are there instead. -/
def Computes {α β : Type} (xs : List SVal) (m : GenM β) (x : EvalM α) (zs : α → List SVal) :
    Prop :=
  ∀ st b st' γ₀ γ s s', m st = .ok (b, st') → st'.func.PlacedIn st.pos F →
    Active env U F ρ γ₀ s → s.Yields env U st.pos γ xs s' →
    (Vm.loop d.host).Follows (Vm.Full d.host) (x γ)
      (fun r s'' => s.Yields env U st'.pos r.2 (zs r.1) s'') s'

/-- The same for the value of the function: in the position of a tail it may
have been returned. -/
def Finishes {β : Type} (tail : Bool) (xs : List SVal) (m : GenM β) (x : EvalM SVal) : Prop :=
  ∀ st b st' γ₀ γ s s', m st = .ok (b, st') → st'.func.PlacedIn st.pos F →
    Active env U F ρ γ₀ s → s.Yields env U st.pos γ xs s' →
    (Vm.loop d.host).Follows (Vm.Full d.host) (x γ)
      (fun r s'' => s.Yields env U st'.pos r.2 [r.1] s''
        ∨ tail = true ∧ d.tailCalls ρ = true ∧ s.HandsBack env U r.2 r.1 s'') s'

end Pieces

/-- The meaning may come out as `a`. -/
def Results {α : Type} (x : EvalM α) (a : α) : Prop := ∃ γ γ', x γ = .ok (a, γ')

section Rules

variable {d : Dialect} {env : GenEnv} {U : Set (List Byte)} {F : Func} {ρ : Env}
  {α β α' β' : Type} {xs : List SVal} {m : GenM β} {f : β → GenM β'} {tail : Bool}

namespace FuncTable

/-- Of two pieces, the first is placed where both are. -/
theorem PlacedIn.first {ctx : Ctx} {st st1 st' : GenState} (h : st'.func.PlacedIn st.pos F)
    (h' : st1.func.Begins ctx st'.func) : st1.func.PlacedIn st.pos F := h.before h'

theorem PlacedIn.second {ctx : Ctx} {st st1 st' : GenState} (h : st'.func.PlacedIn st.pos F)
    (h' : st.func.Begins ctx st1.func) : st'.func.PlacedIn st1.pos F :=
  h.mono h'.code.length_le

end FuncTable

theorem Computes.bind {x : EvalM α} {g : α → EvalM α'} {ys : α → List SVal}
    {zs : α' → List SVal} (hm : Computes d env U F ρ xs m x ys) (ho : Onward ρ.ctx m)
    (hf : ∀ b a, Results x a → Computes d env U F ρ (ys a) (f b) (g a) zs)
    (ho' : ∀ b, Onward ρ.ctx (f b)) :
    Computes d env U F ρ xs (m >>= f) (x >>= g) zs := by
  intro st b' st' γ₀ γ s s' h hplaced ha hy
  obtain ⟨b, st1, h1, h2⟩ := bind_ok.mp h
  have hfirst := hm st b st1 γ₀ γ s s' h1 (hplaced.first (ho' b _ _ _ h2)) ha hy
  exact hfirst.bind fun r s'' hr hy' =>
    hf b r.1 ⟨γ, r.2, hr⟩ st1 b' st' γ₀ r.2 s s'' h2 (hplaced.second (ho _ _ _ h1)) ha hy'

/-- The last piece may leave the function. -/
theorem Computes.finish {x : EvalM α} {g : α → EvalM SVal} {ys : α → List SVal}
    (hm : Computes d env U F ρ xs m x ys) (ho : Onward ρ.ctx m)
    (hf : ∀ b a, Results x a → Finishes d env U F ρ tail (ys a) (f b) (g a))
    (ho' : ∀ b, Onward ρ.ctx (f b)) :
    Finishes d env U F ρ tail xs (m >>= f) (x >>= g) := by
  intro st b' st' γ₀ γ s s' h hplaced ha hy
  obtain ⟨b, st1, h1, h2⟩ := bind_ok.mp h
  have hfirst := hm st b st1 γ₀ γ s s' h1 (hplaced.first (ho' b _ _ _ h2)) ha hy
  exact hfirst.bind fun r s'' hr hy' =>
    hf b r.1 ⟨γ, r.2, hr⟩ st1 b' st' γ₀ r.2 s s'' h2 (hplaced.second (ho _ _ _ h1)) ha hy'

theorem Computes.finishes {x : EvalM SVal} (h : Computes d env U F ρ xs m x fun z => [z])
    (tail : Bool) : Finishes d env U F ρ tail xs m x :=
  fun st b st' γ₀ γ s s' hm hplaced ha hy =>
    (h st b st' γ₀ γ s s' hm hplaced ha hy).imp fun _ _ _ hr => Or.inl hr

/-- Where no tail calls are made the function is not left. -/
theorem Finishes.stays {x : EvalM SVal} (h : Finishes d env U F ρ tail xs m x)
    (hstay : (tail && d.tailCalls ρ) = false) : Computes d env U F ρ xs m x fun z => [z] :=
  fun st b st' γ₀ γ s s' hm hplaced ha hy =>
    (h st b st' γ₀ γ s s' hm hplaced ha hy).imp fun _ _ _ hr => by
      rcases hr with hr | ⟨ht, hcalls, -⟩
      · exact hr
      · rw [ht, hcalls] at hstay
        cases hstay

/-- Values further down stay. -/
theorem Computes.frame {x : EvalM α} {zs : α → List SVal}
    (h : Computes d env U F ρ [] m x zs) (ys : List SVal) :
    Computes d env U F ρ ys m x fun a => ys ++ zs a :=
  fun st b st' γ₀ γ s s' hm hplaced ha hy => by
    have ha' := ha.yields hy
    have hrefl := ha'.refl
    rw [hy.pc] at hrefl
    exact (h st b st' γ γ s' s' hm hplaced ha' hrefl).imp fun _ _ _ hr => hy.trans hr

/-- What is left may be told otherwise. -/
theorem Computes.map {x : EvalM α} {zs : α → List SVal} {φ : α → α'} {zs' : α' → List SVal}
    (h : Computes d env U F ρ xs m x zs) (hzs : ∀ a, zs' (φ a) = zs a) :
    Computes d env U F ρ xs m (x >>= fun a => pure (φ a)) zs' :=
  fun st b st' γ₀ γ s s' hm hplaced ha hy =>
    (h st b st' γ₀ γ s s' hm hplaced ha hy).bind fun r s'' _ hr => .pure (by rwa [hzs])

theorem Computes.pure {a : α} {b : β} {zs : α → List SVal} (hzs : zs a = xs) :
    Computes d env U F ρ xs (Pure.pure b) (Pure.pure a) zs := by
  intro st b' st' γ₀ γ s s' h _ _ hy
  cases h
  exact .pure (hzs ▸ hy)

/-- Another generator that comes out the same. -/
theorem Finishes.of_run {m' : GenM β} {x : EvalM SVal} (h : Finishes d env U F ρ tail xs m x)
    (hm : ∀ st b st', m' st = .ok (b, st') → m st = .ok (b, st')) :
    Finishes d env U F ρ tail xs m' x :=
  fun st b st' γ₀ γ s s' hrun => h st b st' γ₀ γ s s' (hm st b st' hrun)

theorem Finishes.unsaid : Finishes d env U F ρ tail xs m Saurus.unsaid :=
  fun _ _ _ _ _ _ _ _ _ _ _ => .unsaid rfl

end Rules

end Saurus
