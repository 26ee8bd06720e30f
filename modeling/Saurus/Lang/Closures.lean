import Saurus.Lang.Globals

/-!
# Making values

What `lambda` and `push_varg` make: a closure has the constants of its
prototype, each as it was written, and the values that were captured; the
arguments of a function that takes any number of them become a vector. Both
only add to the world.
-/

namespace Saurus

open Basis

section Make

variable {env : GenEnv} {U : Set (List Byte)} {w : World}

/-! ## Constants -/

theorem setObjB_low (obj : BitVec 64) (b : Bool) :
    (setObjB obj b).setWidth 32 = if b then 1#32 else 0#32 := by
  rw [setObjB, BitVec.setWidth_or, BitVec.setWidth_and,
    show (0xffffffff00000000#64).setWidth 32 = 0#32 by decide, BitVec.and_zero, BitVec.zero_or]
  cases b <;> rfl

theorem goesOn_drawJunk (hs : w.Strung U) (junk : Nat → BitVec 64) :
    w.GoesOn U (drawJunk junk w).1 0 := by
  obtain ⟨f, T, hi, hmem, honly⟩ := hs
  exact ⟨fun _ _ _ h => h, ⟨f, T, hi.extends (fun _ _ h => h) rfl, hmem, honly⟩, rfl,
    Nat.le_refl _, by simp [drawJunk]⟩

/-- A constant is made as it was written. -/
theorem createValue_shows (junk : Nat → BitVec 64) (hU : Hashed U) (hs : w.Strung U) {c : Const}
    (hc : ∀ s, c = .string s → 0#8 ∉ s ∧ s ++ [0#8] ∈ U) (hroom : w.Spare 1) :
    ∃ w' v, createValue junk w (asConst c) = .ok (w', v) ∧ w.GoesOn U w' 1
      ∧ c.literal.Denotes w' v := by
  have hjunk := (goesOn_drawJunk hs junk).mono (Nat.zero_le 1)
  cases c with
  | number n => exact ⟨w, _, rfl, (World.GoesOn.rfl hs).mono (Nat.zero_le 1), rfl, rfl⟩
  | boolean b =>
      cases b
      · exact ⟨_, _, rfl, hjunk, rfl, setObjB_low _ false⟩
      · exact ⟨_, _, rfl, hjunk, rfl, setObjB_low _ true⟩
  | string s =>
      change ∃ w' v, createValue junk w (if s = nilAtom then .nil else .string (cString s ++ [0#8]))
        = .ok (w', v) ∧ w.GoesOn U w' 1
          ∧ (if s = nilAtom then Literal.nil else .string s).Denotes w' v
      by_cases hnil : s = nilAtom
      · rw [if_pos hnil, if_pos hnil]
        exact ⟨_, _, rfl, hjunk, rfl⟩
      · obtain ⟨hnul, hmem⟩ := hc s rfl
        obtain ⟨w', v, hrun, hw, ht, hobj⟩ := internString_goesOn hU hs hmem hroom
        rw [if_neg hnil, if_neg hnil, cString_eq hnul]
        exact ⟨w', v, hrun, hw, ht, _, hobj⟩

theorem createValues_shows (junk : Nat → BitVec 64) (hU : Hashed U) :
    ∀ {cs : List Const} {w : World}, w.Strung U →
    (∀ s, .string s ∈ cs → 0#8 ∉ s ∧ s ++ [0#8] ∈ U) → w.Spare cs.length →
    (∃ m, globalsMap w = .ok m) →
    ∃ w' vs, createValues junk w (cs.map asConst) = .ok (w', vs) ∧ w.GoesOn U w' cs.length
      ∧ ShowConsts w' cs vs
  | [], w, hs, _, _, _ => ⟨w, [], rfl, .rfl hs, fun i c hc => by cases hc⟩
  | c :: cs, w, hs, hcs, hroom, hg => by
      obtain ⟨w1, v, hv, hw1, hden⟩ := createValue_shows junk hU hs
        (fun s heq => hcs s (heq ▸ List.mem_cons_self)) (hroom.mono (by simp))
      have hg1 : ∃ m, globalsMap w1 = .ok m := hg.imp fun _ hm => hw1.globalsMap hm
      obtain ⟨w2, vs, hvs, hw2, hshow⟩ := createValues_shows junk hU hw1.strung
        (fun s hmem => hcs s (List.mem_cons_of_mem _ hmem))
        ((hroom.mono (by rw [List.length_cons]; omega)).goesOn hw1 hg) hg1
      refine ⟨w2, v :: vs, ?_, (hw1.trans hw2).mono (by rw [List.length_cons]; omega), ?_⟩
      · rw [List.map_cons, createValues, hv, Outcome.ok_bind]
        dsimp only
        rw [hvs]
        rfl
      · intro i k hk
        cases i with
        | zero =>
            cases hk
            exact ⟨v, rfl, hden.remains hw2.remains⟩
        | succ i => exact hshow i k hk

/-! ## Closures -/

theorem Tame.named {F : Func} (h : Tame U F) (s : List Byte) (hs : .string s ∈ F.const) :
    0#8 ∉ s ∧ s ++ [0#8] ∈ U := ⟨(h.fits.const s hs).1, h.strings s hs⟩

theorem upvalues_asProto (F : Func) : (asProto F).upvalues = F.up.map asUp := by
  cases F
  rfl

theorem prot_asProto (F : Func) : (asProto F).prot = F.prot.map asProto := by
  cases F
  exact asProtos_eq_map _

/-- `lambda` makes a closure of `F` with what was captured. -/
theorem lambda_makes (junk : Nat → BitVec 64) (hU : Hashed U) (hs : w.Strung U) {F : Func}
    (htame : Tame U F) (hg : ∃ m, globalsMap w = .ok m) (hroom : w.Spare (F.const.length + 1))
    (narg : Int)
    {capture : Upvalue → Outcome Value} {ups : List Value}
    (hups : captureAll capture (F.up.map asUp) = .ok ups) :
    ∃ w' v fn, lambda junk w (asProto F) narg capture = .ok (w', v)
      ∧ w.GoesOn U w' (F.const.length + 1) ∧ v.type = .function
      ∧ w'.object v.addr = .ok (.function fn) ∧ fn.narg = narg ∧ fn.prot = asProto F
      ∧ ShowConsts w' F.const fn.constants ∧ fn.upvalues = ups := by
  obtain ⟨w1, vs, hvs, hw1, hshow⟩ := createValues_shows junk hU hs htame.named
    (hroom.mono (Nat.le_succ _)) hg
  have hroom1 : w1.Spare 1 := hroom.goesOn hw1 hg
  obtain ⟨w2, halloc, hw2, hobj, -⟩ := goesOn_alloc hw1.strung
    (o := .function ⟨narg, asProto F, vs, ups⟩) nofun hroom1.objects
  refine ⟨w2, objValue .function (w1.objects.length + 1), ⟨narg, asProto F, vs, ups⟩, ?_,
    hw1.trans hw2, rfl, ?_, rfl, rfl, ?_, rfl⟩
  · rw [lambda, constants_asProto, hvs, Outcome.ok_bind, upvalues_asProto]
    dsimp only
    rw [hups, Outcome.ok_bind, halloc]
    rfl
  · rw [addr_objValue hroom1.objects, hobj]
  · exact hshow.remains hw2.remains

/-! ## Collected arguments -/

theorem alloc_full {o : Obj} (h : ¬ w.objects.length + 1 < 2 ^ 64) :
    w.alloc o = .raise "Out of memory!" := if_neg h

theorem pushAll_collects : ∀ {vs done : List Value} {w : World} {a : ObjAddr} {vec : Vec},
    w.Strung U → a < 2 ^ 64 → w.object a = .ok (.vector vec) → VecRepresents vec done →
    (done ++ vs).length < 2 ^ 31 →
    pushAll w a vec vs = .raise "Out of memory!" ∨
      ∃ w' b vec', pushAll w a vec vs = .ok (w', b) ∧ w.GoesOn U w' vs.length ∧ b < 2 ^ 64
        ∧ w'.object b = .ok (.vector vec') ∧ VecRepresents vec' (done ++ vs)
  | [], done, w, a, vec, hs, ha, hobj, hvec, _ =>
      Or.inr ⟨w, a, vec, rfl, .rfl hs, ha, hobj, by rwa [List.append_nil]⟩
  | v :: vs, done, w, a, vec, hs, ha, hobj, hvec, hlen => by
      have hcap : done.length + 1 < 2 ^ 31 := by
        rw [List.length_append, List.length_cons] at hlen
        omega
      obtain ⟨vec1, hpush, hvec1⟩ := vectorPush_ok hvec v hcap
      by_cases hroom : w.objects.length + 1 < 2 ^ 64
      · obtain ⟨w1, halloc, hw1, hobj1, -⟩ :=
          goesOn_alloc hs (o := .vector vec1) nofun hroom
        have happ : done ++ v :: vs = (done ++ [v]) ++ vs := by simp
        rw [pushAll, hpush, Outcome.ok_bind, halloc, Outcome.ok_bind, happ]
        refine (pushAll_collects hw1.strung hroom hobj1 hvec1 (happ ▸ hlen)).imp id ?_
        rintro ⟨w', b, vec', hrun, hw', hb, hobj', hvec'⟩
        exact ⟨w', b, vec', hrun, (hw1.trans hw').mono (by rw [List.length_cons]; omega), hb, hobj',
          hvec'⟩
      · refine Or.inl ?_
        rw [pushAll, hpush, Outcome.ok_bind, alloc_full hroom, Outcome.raise_bind]

/-- `push_varg` makes a vector of the arguments, or finds no memory for it. -/
theorem collectVarg_collects (hs : w.Strung U) (args : List Value) (hlen : args.length < 2 ^ 31) :
    collectVarg w args = .raise "Out of memory!" ∨
      ∃ w' v vec, collectVarg w args = .ok (w', v) ∧ w.GoesOn U w' (args.length + 1)
        ∧ v.type = .vector ∧ w'.object v.addr = .ok (.vector vec) ∧ VecRepresents vec args := by
  by_cases hroom : w.objects.length + 1 < 2 ^ 64
  · obtain ⟨w1, halloc, hw1, hobj1, -⟩ :=
      goesOn_alloc hs (o := .vector vectorCreateEmpty) nofun hroom
    rw [collectVarg, halloc, Outcome.ok_bind]
    rcases pushAll_collects hw1.strung hroom hobj1 vecRepresents_empty hlen with
      hraise | ⟨w', b, vec, hrun, hw', hb, hobj, hvec⟩
    · refine Or.inl ?_
      dsimp only
      rw [hraise, Outcome.raise_bind]
    · refine Or.inr ⟨w', objValue .vector b, vec, ?_,
        (hw1.trans hw').mono (by omega), rfl, ?_, hvec⟩
      · dsimp only
        rw [hrun]
        rfl
      · rw [addr_objValue hb, hobj]
  · exact Or.inl (by rw [collectVarg, alloc_full hroom, Outcome.raise_bind])

/-- The vector of what stands for values stands for the vector of them. -/
theorem RepAll.vector {xs : List SVal} {vs : List Value} {v : Value} {vec : Vec}
    (h : RepAll env U w xs vs) (ht : v.type = .vector) (hobj : w.object v.addr = .ok (.vector vec))
    (hvec : VecRepresents vec vs) : Rep env U w (.vector xs) v :=
  .vector ht hobj hvec h.length_eq fun i x u hx hu => by
    have hi := (List.getElem?_eq_some_iff.mp hx).1
    have hi' := (List.getElem?_eq_some_iff.mp hu).1
    have := (List.forall₂_iff_get.mp h).2 i hi hi'
    rw [List.getElem?_eq_getElem hi] at hx
    rw [List.getElem?_eq_getElem hi'] at hu
    cases hx
    cases hu
    exact this

end Make

end Saurus
