import Saurus.Lang.Eval
import Saurus.Macro.Unquote
import Saurus.Vec.Refine

/-!
# Values of programs in the interpreter

`Rep` says which `value_t` stands for a value of a program. Data is found
in the objects it points to; a closure is a function object of the code that
was generated for its body, with its upvalues standing for what the scope
around it binds (`Compiled`).

Only functions whose tables fit the format are considered, with strings from
a set in which no two share a hash, without `-0`, which would be one constant
with `0`, and with variables that come from the function around at most
(`Tame`): `lambda` looks for others in the frames that happen to be there.
-/

namespace Saurus

open Basis

/-! ## Worlds in which data stays -/

/-- An object nothing writes to once it is made. -/
def Obj.Lasting : Obj → Prop
  | .loc _ => False
  | .iterator _ _ => False
  | _ => True

/-- Lasting objects stay as they are. -/
def World.Remains (w w' : World) : Prop :=
  ∀ a o, Obj.Lasting o → w.object a = .ok o → w'.object a = .ok o

namespace World.Remains

variable {w w' w'' : World}

theorem rfl : w.Remains w := fun _ _ _ h => h

theorem trans (h : w.Remains w') (h' : w'.Remains w'') : w.Remains w'' :=
  fun a o ho hobj => h' a o ho (h a o ho hobj)

theorem of_extends (h : w.Extends w') : w.Remains w' := fun a o _ hobj => h a o hobj

theorem additive : World.Additive World.Remains where
  of_objects := fun h a o _ hobj => by rwa [World.object, h]
  trans := trans
  alloc := fun _ r hr => by
    obtain ⟨hw, -, -⟩ := alloc_ok hr
    exact of_extends fun a o hobj => hw ▸ object_append hobj

end World.Remains

theorem Literal.Denotes.remains {lit : Literal} {w w' : World} {v : Value} (h : lit.Denotes w v)
    (hw : w.Remains w') : lit.Denotes w' v := by
  cases lit with
  | nil | boolean | number => exact h
  | string s =>
      obtain ⟨htype, hash, hobj⟩ := h
      exact ⟨htype, hash, hw _ _ trivial hobj⟩

/-! ## Code -/

/-- The tables of a function fit, its variables come from the function around
it, its strings are among those that have hashes of their own, and equal
numbers are the same. -/
structure Tame (U : Set (List Byte)) (f : Func) : Prop where
  fits : NodeFits f
  near : ∀ u ∈ f.up, u.1 = 1
  strings : ∀ s, .string s ∈ f.const → s ++ [0#8] ∈ U
  numbers : .number negativeZero ∉ f.const

/-- What `Tame` asks of a constant. -/
def Const.Tame (U : Set (List Byte)) : Const → Prop
  | .string s => StringFits s ∧ s ++ [0#8] ∈ U
  | .number n => n ≠ negativeZero
  | .boolean _ => True

/-- The conditions part by part, as they are checked. -/
theorem tame_iff {U : Set (List Byte)} {f : Func} :
    Tame U f ↔ TablesFit f ∧ (∀ v ∈ f.instructions, v.Fits) ∧ (∀ c ∈ f.const, c.Tame U)
      ∧ (∀ u ∈ f.up, u.1 = 1 ∧ u.2 < 2 ^ 16) ∧ (∀ s ∈ f.name, StringFits s)
      ∧ ∀ n ∈ f.linenr, n < 2 ^ 32 := by
  constructor
  · rintro ⟨⟨htables, hinst, hconst, hup, hname, hline⟩, hnear, hstrings, hnumbers⟩
    refine ⟨htables, hinst, fun c hc => ?_, fun u hu => ⟨hnear u hu, (hup u hu).2⟩, hname, hline⟩
    cases c with
    | string s => exact ⟨hconst s hc, hstrings s hc⟩
    | number n =>
        rintro rfl
        exact hnumbers hc
    | boolean b => trivial
  · rintro ⟨htables, hinst, hconst, hup, hname, hline⟩
    exact ⟨⟨htables, hinst, fun s hs => (hconst _ hs).1,
      fun u hu => ⟨by rw [(hup u hu).1]; decide, (hup u hu).2⟩, hname, hline⟩,
      fun u hu => (hup u hu).1, fun s hs => (hconst _ hs).2, fun h => hconst _ h rfl⟩

section Decide

variable {U : Set (List Byte)} [DecidablePred (· ∈ U)]

instance (s : List Byte) : Decidable (StringFits s) := inferInstanceAs (Decidable (_ ∧ _))

instance : DecidablePred (Const.Tame U)
  | .string s => inferInstanceAs (Decidable (StringFits s ∧ s ++ [0#8] ∈ U))
  | .number n => inferInstanceAs (Decidable (n ≠ negativeZero))
  | .boolean _ => isTrue trivial

instance (f : Func) : Decidable (TablesFit f) := inferInstanceAs (Decidable (_ ∧ _))

instance (v : Instr) : Decidable v.Fits := inferInstanceAs (Decidable (_ ∧ _))

instance : DecidablePred (Tame U) := fun _ => decidable_of_iff' _ tame_iff

variable {P : Func → Prop} [DecidablePred P]

mutual

instance Func.decidableAll : ∀ f : Func, Decidable (f.All P)
  | .mk i c u prot n l =>
      have := Func.decidableAllList prot
      inferInstanceAs (Decidable (P (.mk i c u prot n l) ∧ Func.AllList P prot))

instance Func.decidableAllList : ∀ fs : List Func, Decidable (Func.AllList P fs)
  | [] => isTrue trivial
  | f :: fs =>
      have := Func.decidableAll f
      have := Func.decidableAllList fs
      inferInstanceAs (Decidable (f.All P ∧ Func.AllList P fs))

end

end Decide

section Trees

variable {P Q : Func → Prop} {f p : Func}

theorem Func.All.root (h : f.All P) : P f := by
  cases f
  exact h.1

mutual

theorem Func.All.imp (hPQ : ∀ f, P f → Q f) : ∀ {f : Func}, f.All P → f.All Q
  | .mk _ _ _ _ _ _, h => ⟨hPQ _ h.1, Func.AllList.imp hPQ h.2⟩

theorem Func.AllList.imp (hPQ : ∀ f, P f → Q f) : ∀ {fs : List Func}, Func.AllList P fs →
    Func.AllList Q fs
  | [], _ => trivial
  | _ :: _, h => ⟨Func.All.imp hPQ h.1, Func.AllList.imp hPQ h.2⟩

end

theorem Func.All.of_prot (h : f.All P) (hp : p ∈ f.prot) : p.All P := by
  cases f with
  | mk i c u prot n l =>
      have hall : Func.AllList P prot := h.2
      have hmem : p ∈ prot := hp
      clear h hp
      induction prot with
      | nil => cases hmem
      | cons q prot ih =>
          rcases List.mem_cons.mp hmem with rfl | hmem
          · exact hall.1
          · exact ih hall.2 hmem

end Trees

/-- A constant as a literal. -/
def Const.literal : Const → Literal
  | .string s => Datum.symbolLiteral s
  | .number n => .number n
  | .boolean b => .boolean b

/-- The value of a program a constant is. -/
def Const.meaning : Const → SVal
  | .string s => SVal.ofSymbol s
  | .number n => .number n
  | .boolean b => .boolean b

/-- The values are those of the constants, in their order. -/
def ShowConsts (w : World) (const : List Const) (vs : List Value) : Prop :=
  ∀ (i : Nat) (c : Const), const[i]? = some c → ∃ v, vs[i]? = some v ∧ c.literal.Denotes w v

theorem ShowConsts.remains {w w' : World} {const : List Const} {vs : List Value}
    (h : ShowConsts w const vs) (hw : w.Remains w') : ShowConsts w' const vs := fun i c hc =>
  (h i c hc).imp fun _ hv => ⟨hv.1, hv.2.remains hw⟩

/-- No macro call is expanded: the program has none. -/
def GenEnv.NoCalls (env : GenEnv) : Prop :=
  (∀ depth, env.special depth = specialNamed)
    ∧ ∀ past call, ∃ msg, env.expand past call = .error msg

/-- `F` is generated for a function, and `fn` is made of it. -/
structure Compiled (env : GenEnv) (U : Set (List Byte)) (w : World) (lables : List Atom)
    (numArgs : Int) (body : List Sexp) (outer : List Bindings) (F : Func)
    (fn : FunctionObj) : Prop where
  generated : ∃ (depth : Nat) (st st' : GenState),
    genBody (gen env depth) ⟨⟨lables, false⟩, scopesOf outer⟩ body { st with func := {} }
      = .ok ((), st') ∧ F = st'.function
  inner : outer ≠ []
  tame : F.All (Tame U)
  prot : fn.prot = asProto F
  narg : fn.narg = numArgs
  counts : if numArgs < 0 then lables.length = 1 else numArgs = lables.length
  constants : ShowConsts w F.const fn.constants
  upvalues : fn.upvalues.length = F.up.length

theorem Compiled.remains {env : GenEnv} {U : Set (List Byte)} {w w' : World} {lables : List Atom}
    {numArgs : Int} {body : List Sexp} {outer : List Bindings} {F : Func} {fn : FunctionObj}
    (h : Compiled env U w lables numArgs body outer F fn) (hw : w.Remains w') :
    Compiled env U w' lables numArgs body outer F fn :=
  { h with constants := h.constants.remains hw }

/-- What an upvalue is bound to: levels count from the nearest scope. -/
def upvalueIn (outer : List Bindings) (u : Nat × Nat) : Option SVal :=
  outer[u.1 - 1]?.bind fun scope => scope[u.2]?.map Prod.snd

/-! ## Values -/

/-- `v` stands for the value of a program. -/
inductive Rep (env : GenEnv) (U : Set (List Byte)) (w : World) : SVal → Value → Prop where
  | nil {v : Value} : v.type = .nil → Rep env U w .nil v
  | boolean {b : Bool} {v : Value} : v.type = .boolean → objB v = b → Rep env U w (.boolean b) v
  | number {n : BitVec 64} {v : Value} : v.type = .number → v.obj = n → Rep env U w (.number n) v
  | string {s : Atom} {v : Value} {hash : BitVec 32} : v.type = .string →
      w.object v.addr = .ok (.string hash (s ++ [0#8])) → Rep env U w (.string s) v
  | cell {x rest : SVal} {v first next : Value} : v.type = .cellSeq →
      w.object v.addr = .ok (.cell first next) → Rep env U w x first → Rep env U w rest next →
      Rep env U w (.cell x rest) v
  | vector {xs : List SVal} {us : List Value} {vec : Vec} {v : Value} : v.type = .vector →
      w.object v.addr = .ok (.vector vec) → VecRepresents vec us → xs.length = us.length →
      (∀ (i : Nat) x u, xs[i]? = some x → us[i]? = some u → Rep env U w x u) →
      Rep env U w (.vector xs) v
  | native {p : BitVec 64} {v : Value} : v.type = .nativefunc → v.obj = p →
      Rep env U w (.native p) v
  | closure {lables : List Atom} {numArgs : Int} {body : List Sexp} {outer : List Bindings}
      {v : Value} {F : Func} {fn : FunctionObj} : v.type = .function →
      w.object v.addr = .ok (.function fn) → Compiled env U w lables numArgs body outer F fn →
      (∀ (k : Nat) u x y, F.up[k]? = some u → upvalueIn outer u = some x →
        fn.upvalues[k]? = some y → Rep env U w x y) →
      Rep env U w (.closure lables numArgs body outer) v
  | program {v : Value} : v.type = .function → Rep env U w .program v
  | other {v : Value} : v.type ≠ .inv → Rep env U w (.other v) v

section Rep

variable {env : GenEnv} {U : Set (List Byte)} {w w' : World} {x : SVal} {v : Value}

/-- What stands for a value stays, as data does. -/
theorem Rep.remains (h : Rep env U w x v) (hw : w.Remains w') : Rep env U w' x v := by
  induction h with
  | nil ht => exact .nil ht
  | boolean ht hb => exact .boolean ht hb
  | number ht hn => exact .number ht hn
  | string ht hobj => exact .string ht (hw _ _ trivial hobj)
  | cell ht hobj _ _ ihx ihrest => exact .cell ht (hw _ _ trivial hobj) ihx ihrest
  | vector ht hobj hvec hlen _ ih => exact .vector ht (hw _ _ trivial hobj) hvec hlen ih
  | native ht hp => exact .native ht hp
  | closure ht hobj hcomp _ ih => exact .closure ht (hw _ _ trivial hobj) (hcomp.remains hw) ih
  | program ht => exact .program ht
  | other ht => exact .other ht

theorem Rep.type_eq (h : Rep env U w x v) : v.type = x.type := by
  cases h <;> first | assumption | rfl

theorem Rep.type_ne_inv (h : Rep env U w x v) : v.type ≠ .inv := by
  cases h with
  | other ht => exact ht
  | _ =>
      rename_i ht
      simp_all

theorem Rep.truthy_eq (h : Rep env U w x v) : truthy v = x.truthy := by
  cases h with
  | nil ht => simp [truthy, SVal.truthy, ht]
  | boolean ht hb => simp [truthy, SVal.truthy, ht, hb]
  | other => rfl
  | _ =>
      unfold truthy SVal.truthy
      simp_all

/-- The value of a constant stands for what the constant means. -/
theorem Literal.Denotes.rep {c : Const} (h : c.literal.Denotes w v) : Rep env U w c.meaning v := by
  cases c with
  | number n => exact .number h.1 h.2
  | boolean b =>
      refine .boolean h.1 ?_
      rw [objB, h.2]
      cases b <;> rfl
  | string s =>
      change (Datum.symbolLiteral s).Denotes w v at h
      change Rep env U w (SVal.ofSymbol s) v
      unfold Datum.symbolLiteral at h
      unfold SVal.ofSymbol
      by_cases hnil : s = nilAtom
      · rw [if_pos hnil] at h ⊢
        exact .nil h
      · rw [if_neg hnil] at h ⊢
        obtain ⟨ht, hash, hobj⟩ := h
        exact .string ht hobj

end Rep

/-- Values one by one. -/
abbrev RepAll (env : GenEnv) (U : Set (List Byte)) (w : World) : List SVal → List Value → Prop :=
  List.Forall₂ (Rep env U w)

theorem RepAll.remains {env : GenEnv} {U : Set (List Byte)} {w w' : World} {xs : List SVal}
    {vs : List Value} (h : RepAll env U w xs vs) (hw : w.Remains w') : RepAll env U w' xs vs :=
  h.imp fun _ _ hx => hx.remains hw

end Saurus
