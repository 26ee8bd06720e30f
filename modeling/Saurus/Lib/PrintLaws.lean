import Saurus.Lib.Print

/-!
# What `print` writes

`print_rec` on a value that is not shadowed by a sequence on top of the stack
renders the value and puts everything back, or overflows the stack
(`printRec_ok`). With that the two tests of `print_rec` decide what each turn
of `print` writes, and `print_faithful_iff` says when that is right.
-/

namespace Saurus

open Basis Outcome

/-! ## Values as they are printed -/

namespace Printed

mutual

/-- The value is to be printed as this. The count of a vector is an `int`. -/
def Holds (c : Printf) (h : Host) (w : World) : Printed → Value → Prop
  | scalar text, v => v.type.suType ≠ .vector ∧ v.type.suType ≠ .map ∧ v.type.suType ≠ .seq
      ∧ stringify c h w v = .ok text
  | vector ts, v => ∃ xs, HoldsVec w v xs ∧ xs.length < 2 ^ 31 ∧ HoldsAll c h w ts xs
  | seq ts, v => ts ≠ [] ∧ ∃ xs, SeqOf w v xs ∧ HoldsAll c h w ts xs

def HoldsAll (c : Printf) (h : Host) (w : World) : List Printed → List Value → Prop
  | [], xs => xs = []
  | t :: ts, xs => ∃ x ys, xs = x :: ys ∧ t.Holds c h w x ∧ HoldsAll c h w ts ys

end

end Printed

open Printed

section Printing

variable {c : Printf} {h : Host} {s s' s'' : Vm} {w w' : World} {v : Value}

theorem HoldsVec.extends {xs : List Value} (hv : HoldsVec w v xs) (hw : w.Extends w') :
    HoldsVec w' v xs := by
  obtain ⟨htype, vec, hobj, hr⟩ := hv
  exact ⟨htype, vec, vecObject_eq_ok.mpr (hw _ _ (vecObject_eq_ok.mp hobj)), hr⟩

theorem stringify_extends {text : List Byte} (hw : w.Extends w')
    (htext : stringify c h w v = .ok text) : stringify c h w' v = .ok text := by
  unfold stringify at htext ⊢
  split at htext
  case h_4 =>
      obtain ⟨o, ho, htext⟩ := bind_eq_ok.mp htext
      rw [hw _ _ ho]
      exact htext
  all_goals exact htext

mutual

theorem Printed.Holds.extends (hw : w.Extends w') : ∀ {t : Printed} {v : Value},
    t.Holds c h w v → t.Holds c h w' v
  | .scalar _, _, ⟨hvec, hmap, hseq, htext⟩ => ⟨hvec, hmap, hseq, stringify_extends hw htext⟩
  | .vector _, _, ⟨xs, hv, hlt, hall⟩ => ⟨xs, hv.extends hw, hlt, holdsAll_extends hw hall⟩
  | .seq _, _, ⟨hne, xs, hv, hall⟩ => ⟨hne, xs, hv.extends hw, holdsAll_extends hw hall⟩

theorem holdsAll_extends (hw : w.Extends w') : ∀ {ts : List Printed} {xs : List Value},
    HoldsAll c h w ts xs → HoldsAll c h w' ts xs
  | [], _, hnil => hnil
  | _ :: _, _, ⟨x, ys, heq, ht, hts⟩ => ⟨x, ys, heq, ht.extends hw, holdsAll_extends hw hts⟩

end

/-- A value is a sequence where it is printed as one. -/
theorem Printed.Holds.isSeq_iff {t : Printed} (ht : t.Holds c h w v) :
    v.type.suType = .seq ↔ t.IsSeq := by
  cases t with
  | scalar text => exact iff_of_false ht.2.2.1 not_false
  | vector ts =>
      obtain ⟨xs, hv, -⟩ := ht
      rw [hv.type]
      exact iff_of_false nofun not_false
  | seq ts =>
      obtain ⟨hne, xs, hv, hall⟩ := ht
      cases ts with
      | nil => exact absurd rfl hne
      | cons t ts =>
          obtain ⟨x, ys, rfl, -, -⟩ := hall
          exact iff_of_true hv.type_seq trivial

/-- `su_stringify` has no more than a pointer for a sequence. -/
theorem stringify_seq {ts : List Printed} (ht : (Printed.seq ts).Holds c h w v) :
    stringify c h w v = .ok (tagged c ['s', 'e', 'q', 'u', 'e', 'n', 'c', 'e'] v) := by
  obtain ⟨hne, xs, hseq, hall⟩ := ht
  cases ts with
  | nil => exact absurd rfl hne
  | cons t ts =>
      obtain ⟨x, ys, rfl, -, -⟩ := hall
      rw [stringify]
      cases hseq with
      | cell htype => rw [htype]; rfl
      | iterator htype => rw [htype]; rfl

/-! ## States -/

/-- `m` values are on top of the stack as it was, and at most `n` objects are
new. -/
structure Stacked (s s' : Vm) (m n : Nat) : Prop where
  rest : s' = { s with world := s'.world, stack := s'.stack, stackTop := s.stackTop + m }
  stack : ∀ i < s.stackTop, s'.stack i = s.stack i
  objects : s.world.Extends s'.world
  length : s'.world.objects.length ≤ s.world.objects.length + n

theorem Stacked.stackTop {m n : Nat} (hk : Stacked s s' m n) : s'.stackTop = s.stackTop + m := by
  rw [hk.rest]

theorem Stacked.rfl {n : Nat} : Stacked s s 0 n :=
  ⟨Eq.refl _, fun _ _ => Eq.refl _, .rfl, Nat.le_add_right ..⟩

theorem Stacked.trans {m m' n n' : Nat} (hk : Stacked s s' m n) (hk' : Stacked s' s'' m' n') :
    Stacked s s'' (m + m') (n + n') where
  rest := by
    have hrest := hk'.rest
    rw [hk.rest] at hrest
    rw [hrest]
    simp only [Nat.add_assoc]
  stack := fun i hi => by
    rw [hk'.stack i (by rw [hk.stackTop]; omega), hk.stack i hi]
  objects := hk.objects.trans hk'.objects
  length := by
    have := hk.length
    have := hk'.length
    omega

theorem Stacked.mono {m n n' : Nat} (hk : Stacked s s' m n) (hle : n ≤ n') : Stacked s s' m n' :=
  ⟨hk.rest, hk.stack, hk.objects, Nat.le_trans hk.length (Nat.add_le_add_left hle _)⟩

theorem stacked_push {n : Nat} (v : Value) : Stacked s (s.push v) 1 n :=
  ⟨Eq.refl _, fun _ hi => Function.update_of_ne (Nat.ne_of_lt hi) .., .rfl, Nat.le_add_right ..⟩

theorem Stacked.pop {m k n : Nat} (hk : Stacked s s' (m + k) n) :
    ∃ s2, s'.pop k = .ok s2 ∧ Stacked s s2 m n ∧ s2.world = s'.world ∧ s2.stack = s'.stack := by
  have htop := hk.stackTop
  refine ⟨{ s' with stackTop := s'.stackTop - k }, ?_, ⟨?_, hk.stack, hk.objects, hk.length⟩,
    Eq.refl _, Eq.refl _⟩
  · rw [Vm.pop, decide_eq_true (by omega)]
    rfl
  · have hsub : s'.stackTop - k = s.stackTop + m := by omega
    rw [hsub]
    exact congrArg (fun u : Vm => { u with stackTop := s.stackTop + m }) hk.rest

/-- A value that was pushed is popped again. -/
theorem Stacked.drop {n : Nat} (hk : Stacked (s.push v) s' 0 n) :
    ∃ s2, s'.pop 1 = .ok s2 ∧ Stacked s s2 0 n := by
  have hkept : Stacked s s' (0 + 1) n := by simpa using (stacked_push (n := 0) v).trans hk
  obtain ⟨s2, hpop, hkept, -, -⟩ := hkept.pop
  exact ⟨s2, hpop, hkept⟩

/-- The values below are where they were, `m` slots further down. -/
theorem Stacked.stk {m n i : Nat} (hk : Stacked s s' m n) (hi : 1 ≤ i) (hv : s.stk i = .ok v) :
    s'.stk (i + m) = .ok v := by
  obtain ⟨_, hle, hv⟩ := bind_eq_ok.mp hv
  have hle := of_decide_eq_true (require_eq_ok.mp hle)
  rw [Vm.stk, hk.stackTop, decide_eq_true (by omega), require_true, ok_bind,
    hk.stack _ (by omega), ← hv]
  congr 2
  omega

theorem pushValue_push (hroom : s.stackTop < stackSize) (v : Value) :
    s.pushValue v = .ok (s.push v) := Vm.pushValue_ok hroom v

theorem pushValue_full (hroom : ¬ s.stackTop < stackSize) (v : Value) :
    s.pushValue v = .raise "Stack overflow!" := by
  rw [Vm.pushValue, Vm.pushFrom, decide_eq_false hroom]
  rfl

theorem suType_of_stk {i : Nat} (hv : s.stk i = .ok v) : s.suType i = .ok v.type.suType := by
  rw [Vm.suType, hv]
  rfl

/-! ## Text -/

/-- Everything goes to `stdout`, and is the text in all. -/
def Writes (ws : List Write) (text : List Byte) : Prop :=
  (∀ x ∈ ws, x.1 = .stdout) ∧ ws.flatMap (·.2) = text

theorem Writes.append {ws ws' : List Write} {text text' : List Byte} (hw : Writes ws text)
    (hw' : Writes ws' text') : Writes (ws ++ ws') (text ++ text') := by
  refine ⟨fun x hx => ?_, ?_⟩
  · rcases List.mem_append.mp hx with hx | hx
    · exact hw.1 x hx
    · exact hw'.1 x hx
  · rw [List.flatMap_append, hw.2, hw'.2]

theorem writes_one (text : List Byte) : Writes [(.stdout, text)] text :=
  ⟨fun _ hx => List.mem_singleton.mp hx ▸ rfl, List.flatMap_singleton ..⟩

theorem writes_nil : Writes [] [] := ⟨fun _ hx => absurd hx List.not_mem_nil, rfl⟩

theorem writes_separator (i : Nat) :
    Writes (separator i) (if 0 < i then atom [' '] else []) := by
  unfold separator
  split
  · exact writes_one _
  · exact writes_nil

theorem Writes.between {ws : List Write} {text : List Byte} (hw : Writes ws text)
    (left right : List Char) :
    Writes (out left :: ws ++ [out right]) (atom left ++ text ++ atom right) :=
  ((writes_one (atom left)).append hw).append (writes_one (atom right))

/-! ## Runs -/

/-- The integers of C survive as numbers. -/
def Host.Exact (h : Host) : Prop := ∀ i : Nat, i < 2 ^ 31 → h.toInt (h.ofInt i) = .ok (i : Int)

/-- `f` prints the text and puts the stack back, or there is no room for
`need` more slots. -/
def Prints (s : Vm) (need size : Nat) (text : List Byte)
    (f : Nat → Outcome (Vm × List Write)) : Prop :=
  Peaks stackSize "Stack overflow!" (s.stackTop + need) f
    fun r => Stacked s r.1 0 size ∧ Writes r.2 text

theorem pushValue_peaks (s : Vm) (v : Value) :
    Peaks stackSize "Stack overflow!" (s.stackTop + 1) (fun _ => s.pushValue v)
      fun s' => s' = s.push v ∧ s'.stackTop ≤ stackSize := by
  by_cases hroom : s.stackTop < stackSize
  · exact peaks_ok (settles_of_eq (pushValue_push hroom v)) hroom ⟨rfl, hroom⟩
  · rw [Peaks, if_neg (show ¬ s.stackTop + 1 ≤ stackSize from hroom), pushValue_full hroom]
    exact settles_const _

theorem suFirst_peaks {r x : Value} {xs : List Value} (hr : s.stk 1 = .ok r)
    (hseq : SeqOf s.world r (x :: xs)) :
    Peaks stackSize "Stack overflow!" (s.stackTop + 1) (fun _ => s.suFirst 1)
      fun s' => s' = s.push x ∧ s'.stackTop ≤ stackSize := by
  have hfirst : s.suFirst 1 = s.pushValue x := by
    rw [Vm.suFirst, hr, ok_bind, hseq.first, ok_bind]
  rw [hfirst]
  exact pushValue_peaks s x

theorem suRest_peaks {r x : Value} {xs : List Value} (hr : s.stk 1 = .ok r)
    (hseq : SeqOf s.world r (x :: xs)) (hmem : s.world.objects.length + 1 < 2 ^ 64) :
    Peaks stackSize "Stack overflow!" (s.stackTop + 1) (fun _ => s.suRest h 1)
      fun s' => Stacked s s' 1 1 ∧ s'.stackTop ≤ stackSize
        ∧ ∃ rest, s'.stk 1 = .ok rest ∧ SeqOf s'.world rest xs := by
  obtain ⟨w, rest, hrest, hw, hlen, hxs⟩ := hseq.rest h.junk hmem
  have hpush : s.suRest h 1 = { s with world := w }.pushValue rest := by
    rw [Vm.suRest, hr, ok_bind, hrest]
    rfl
  rw [hpush]
  refine (pushValue_peaks { s with world := w } rest).imp ?_
  rintro s' ⟨rfl, hroom⟩
  have hkept : Stacked s (Vm.push { s with world := w } rest) 1 1 :=
    ⟨rfl, fun _ hi => Function.update_of_ne (Nat.ne_of_lt hi) .., hw, hlen⟩
  exact ⟨hkept, hroom, rest, Vm.stk_push_top .., hxs⟩

/-- One turn over a sequence. -/
theorem printSeq_turn {r : Value} (hr : s.stk 1 = .ok r) (hseq : r.type.suType = .seq)
    (i fuel : Nat) :
    printSeq c h (fuel + 1) s i = s.suFirst 1 >>= fun s1 =>
      printRec c h fuel s1 1 >>= fun x => x.1.pop 1 >>= fun s2 => s2.suRest h 1 >>= fun s3 =>
        printSeq c h fuel s3 (i + 1) >>= fun y =>
          pure (y.1, y.2.1, separator i ++ x.2 ++ y.2.2) := by
  rw [printSeq, suType_of_stk hr, ok_bind, hseq]
  rfl

theorem printSeq_done {r : Value} (hr : s.stk 1 = .ok r) (hnil : r.type = .nil) (i fuel : Nat) :
    printSeq c h (fuel + 1) s i = pure (s, i, []) := by
  rw [printSeq, suType_of_stk hr, ok_bind, hnil]
  rfl

theorem suVectorIndex_push {k i : Nat} {x : Value} {xs : List Value} (hh : h.Exact) (hk : 1 ≤ k)
    (hv : s.stk k = .ok v) (hvec : HoldsVec s.world v xs) (hx : xs[i]? = some x)
    (hi : i < 2 ^ 31) :
    (s.push ⟨.number, h.ofInt i⟩).suVectorIndex h (k + 1) = .ok (s.push x) := by
  obtain ⟨-, vec, hobj, hr⟩ := hvec
  have hworld : (s.push ⟨.number, h.ofInt i⟩).world = s.world := rfl
  rw [Vm.suVectorIndex, Vm.stk_push hk, hv, ok_bind, hworld, hobj, ok_bind, Vm.stk_push_top,
    ok_bind]
  dsimp only
  rw [hh i hi, ok_bind, vectorIndex_ok hr hx, ok_bind]
  simp only [Vm.push, Nat.add_sub_cancel, Function.update_idem]
  rfl

/-- The element that a turn over a vector prints. -/
theorem element_peaks {k i : Nat} {x : Value} {xs : List Value} (hh : h.Exact) (hk : 1 ≤ k)
    (hv : s.stk k = .ok v) (hvec : HoldsVec s.world v xs) (hx : xs[i]? = some x)
    (hi : i < 2 ^ 31) :
    Peaks stackSize "Stack overflow!" (s.stackTop + 1)
      (fun _ => s.pushValue ⟨.number, h.ofInt i⟩ >>= fun s1 => s1.suVectorIndex h (k + 1))
      fun s' => s' = s.push x ∧ s'.stackTop ≤ stackSize := by
  refine (pushValue_peaks s _).andThen ?_
  rintro s1 ⟨rfl, hroom⟩
  exact ⟨s.push x, settles_of_eq (suVectorIndex_push hh hk hv hvec hx hi), rfl, hroom⟩

/-- One turn over a vector. -/
theorem printVector_turn {k i n : Nat} (hi : i < n) (fuel : Nat) :
    printVector c h (fuel + 1) s k n i
      = (s.pushValue ⟨.number, h.ofInt i⟩ >>= fun s1 => s1.suVectorIndex h (k + 1)) >>= fun s2 =>
        printRec c h fuel s2 1 >>= fun x => x.1.pop 1 >>= fun s3 =>
          printVector c h fuel s3 k n (i + 1) >>= fun y =>
            pure (y.1, separator i ++ x.2 ++ y.2) := by
  rw [printVector, if_pos (Int.ofNat_lt.mpr hi), Outcome.bind_assoc]

theorem printVector_done (k fuel n : Nat) : printVector c h (fuel + 1) s k n n = pure (s, []) := by
  rw [printVector, if_neg (lt_irrefl _)]

/-- A value that is no collection is printed as its text. -/
theorem printRec_scalar {k : Nat} {top : Value} {text : List Byte} (hv : s.stk k = .ok v)
    (htop : s.stk 1 = .ok top) (hshadow : top.type.suType ≠ .seq)
    (hvec : v.type.suType ≠ .vector) (hmap : v.type.suType ≠ .map)
    (htext : stringify c h s.world v = .ok text) (fuel : Nat) :
    printRec c h (fuel + 1) s k = pure (s, [(.stdout, text)]) := by
  rw [printRec, suType_of_stk hv, ok_bind, suType_of_stk htop, ok_bind, if_neg hshadow]
  cases htype : v.type.suType with
  | vector => exact absurd htype hvec
  | map => exact absurd htype hmap
  | string =>
      have hstr : v.type = .string := by
        cases hcase : v.type <;> rw [hcase] at htype <;> first | rfl | cases htype
      rw [stringify, hstr] at htext
      obtain ⟨o, ho, htext⟩ := bind_eq_ok.mp htext
      simp only [hv, ok_bind, ho]
      cases o with
      | string hash str =>
          cases htext
          rfl
      | _ => cases htext
  | _ => simp only [hv, ok_bind, htext]

/-- A vector that is not shadowed is printed by the loop over it. -/
theorem prints_vector {k need size : Nat} {top : Value} {text : List Byte} {xs : List Value}
    (hv : s.stk k = .ok v) (htop : s.stk 1 = .ok top) (hshadow : top.type.suType ≠ .seq)
    (hvec : HoldsVec s.world v xs)
    (hloop : Prints s need size text (fun fuel => printVector c h fuel s k xs.length 0)) :
    Prints s need size (atom ['['] ++ text ++ atom [']']) (fun fuel => printRec c h fuel s k) := by
  obtain ⟨htype, vec, hobj, hr⟩ := hvec
  obtain ⟨-, -, -, -, hcnt⟩ := id hr
  have hstep : ∀ fuel, printRec c h (fuel + 1) s k
      = printVector c h fuel s k xs.length 0 >>= fun x =>
        pure (x.1, out ['['] :: x.2 ++ [out [']']]) := by
    intro fuel
    rw [printRec, suType_of_stk hv, ok_bind, suType_of_stk htop, ok_bind, if_neg hshadow, htype]
    simp only [ValType.suType, Vm.suVectorLength, hv, ok_bind, hobj, pure_eq, vectorLength, hcnt]
  refine Peaks.spend ?_ hstep
  refine hloop.andThen ?_
  rintro ⟨s1, ws⟩ ⟨hkept, hws⟩
  exact ⟨_, settles_const _, hkept, hws.between ['['] [']']⟩

/-- A sequence on top of the stack is printed by the loop over it, and then
what that leaves is popped. -/
theorem prints_seq {k need size n : Nat} {top : Value} {text : List Byte}
    (hv : s.stk k = .ok v) (htop : s.stk 1 = .ok top) (hseq : top.type.suType = .seq)
    (hloop : Peaks stackSize "Stack overflow!" (s.stackTop + need)
      (fun fuel => printSeq c h fuel s 0)
      fun r => Stacked s r.1 n size ∧ r.2.1 = 0 + n ∧ Writes r.2.2 text) :
    Prints s need size (atom ['('] ++ text ++ atom [')']) (fun fuel => printRec c h fuel s k) := by
  have hstep : ∀ fuel, printRec c h (fuel + 1) s k
      = printSeq c h fuel s 0 >>= fun x => x.1.pop x.2.1 >>= fun s1 =>
        pure (s1, out ['('] :: x.2.2 ++ [out [')']]) := by
    intro fuel
    rw [printRec, suType_of_stk hv, ok_bind, suType_of_stk htop, ok_bind, if_pos hseq]
  refine Peaks.spend ?_ hstep
  refine hloop.andThen ?_
  rintro ⟨s1, i, ws⟩ ⟨hkept, rfl, hws⟩
  have hall : Stacked s s1 (0 + n) size := by rwa [Nat.zero_add]
  obtain ⟨s2, hpop, hkept, -, -⟩ := hall.pop
  dsimp only
  rw [Nat.zero_add, hpop]
  exact ⟨_, settles_const _, hkept, hws.between ['('] [')']⟩

mutual

/-- A value on top of the stack is printed as it is. -/
theorem printRec_top (hh : h.Exact) : ∀ (t : Printed) {s : Vm} {v : Value}, s.stk 1 = .ok v →
    s.stackTop ≤ stackSize → t.Holds c h s.world v →
    s.world.objects.length + t.size < 2 ^ 64 →
    Prints s t.need t.size t.render (fun fuel => printRec c h fuel s 1)
  | .scalar text, s, v, hv, hs, ⟨hvec, hmap, hseq, htext⟩, _ =>
      Peaks.spend (peaks_ok (settles_const _) hs ⟨.rfl, writes_one text⟩)
        (printRec_scalar hv hv hseq hvec hmap htext)
  | .vector ts, s, v, hv, hs, ⟨xs, hvec, hlen, hall⟩, hmem => by
      refine prints_vector hv hv (by rw [hvec.type]; nofun) hvec ?_
      exact printVector_peaks hh ts [] (Nat.le_refl 1) hv hs hvec hlen hall hmem
  | .seq ts, s, v, hv, hs, ⟨hne, xs, hseq, hall⟩, hmem => by
      have htype : v.type.suType = .seq :=
        (Printed.Holds.isSeq_iff (t := .seq ts) ⟨hne, xs, hseq, hall⟩).mpr trivial
      exact prints_seq hv hv htype (printSeq_peaks hh ts 0 hv hs hseq hall hmem)

theorem printSeq_peaks (hh : h.Exact) : ∀ (ts : List Printed) (i : Nat) {s : Vm} {r : Value}
    {xs : List Value}, s.stk 1 = .ok r → s.stackTop ≤ stackSize → SeqOf s.world r xs →
    HoldsAll c h s.world ts xs → s.world.objects.length + sizeAll ts < 2 ^ 64 →
    Peaks stackSize "Stack overflow!" (s.stackTop + needSeq ts)
      (fun fuel => printSeq c h fuel s i)
      fun x => Stacked s x.1 ts.length (sizeAll ts) ∧ x.2.1 = i + ts.length
        ∧ Writes x.2.2 (renderAll i ts)
  | [], i, s, r, xs, hr, hs, hseq, hall, _ => by
      obtain rfl := hall
      exact Peaks.spend (peaks_ok (settles_const _) hs ⟨.rfl, rfl, writes_nil⟩)
        (printSeq_done hr hseq.type_nil i)
  | t :: ts, i, s, r, xs, hr, hs, hseq, hall, hmem => by
      obtain ⟨x, xs, rfl, ht, hts⟩ := hall
      rw [sizeAll] at hmem
      have hpeak : s.stackTop + needSeq (t :: ts) = max (s.stackTop + 1)
          (max (s.stackTop + 1 + t.need) (max (s.stackTop + 1) (s.stackTop + 1 + needSeq ts))) := by
        rw [needSeq]
        omega
      rw [hpeak]
      refine Peaks.spend ?_ (printSeq_turn hr hseq.type_seq i)
      refine Peaks.bind (suFirst_peaks hr hseq) ?_
      rintro s1 ⟨rfl, hroom⟩
      refine Peaks.bind (printRec_top hh t (Vm.stk_push_top s x) hroom ht (by
        show s.world.objects.length + t.size < 2 ^ 64
        omega)) ?_
      rintro ⟨s1, ws⟩ ⟨hprint, hws⟩
      obtain ⟨s2, hpop, hkept⟩ := hprint.drop
      refine Peaks.after (settles_of_eq hpop) ?_
      have htop2 : s2.stackTop = s.stackTop := hkept.stackTop
      have hr2 : s2.stk 1 = .ok r := hkept.stk (Nat.le_refl 1) hr
      have hlen2 := hkept.length
      refine Peaks.bind (htop2 ▸ suRest_peaks hr2 (hseq.extends hkept.objects) (by omega)) ?_
      rintro s3 ⟨hrest, hroom, r3, hr3, hseq3⟩
      have htop3 : s3.stackTop = s.stackTop + 1 := by rw [hrest.stackTop, htop2]
      have hlen3 := hrest.length
      have hext := hkept.objects.trans hrest.objects
      have hloop := printSeq_peaks hh ts (i + 1) hr3 hroom hseq3 (holdsAll_extends hext hts)
        (by omega)
      rw [htop3] at hloop
      refine hloop.andThen ?_
      rintro ⟨s4, n, rest⟩ ⟨hkept4, hn, hws4⟩
      refine ⟨_, settles_const _, ?_, ?_, ?_⟩
      · have hall := (hkept.trans hrest).trans hkept4
        rw [Nat.zero_add, Nat.add_comm 1] at hall
        exact hall.mono (by rw [sizeAll]; omega)
      · dsimp only at hn ⊢
        rw [hn, List.length_cons]
        omega
      · exact ((writes_separator i).append hws).append hws4

theorem printVector_peaks (hh : h.Exact) : ∀ (ts : List Printed) (ys : List Value) {s : Vm}
    {k : Nat} {v : Value} {xs : List Value}, 1 ≤ k → s.stk k = .ok v → s.stackTop ≤ stackSize →
    HoldsVec s.world v (ys ++ xs) → (ys ++ xs).length < 2 ^ 31 → HoldsAll c h s.world ts xs →
    s.world.objects.length + sizeAll ts < 2 ^ 64 →
    Prints s (needVector ts) (sizeAll ts) (renderAll ys.length ts)
      (fun fuel => printVector c h fuel s k (ys ++ xs).length ys.length)
  | [], ys, s, k, v, xs, _, _, hs, _, _, hall, _ => by
      obtain rfl := hall
      rw [List.append_nil]
      exact Peaks.spend (peaks_ok (settles_const _) hs ⟨.rfl, writes_nil⟩)
        fun fuel => printVector_done k fuel ys.length
  | t :: ts, ys, s, k, v, xs, hk, hv, hs, hvec, hlen, hall, hmem => by
      obtain ⟨x, xs, rfl, ht, hts⟩ := hall
      rw [sizeAll] at hmem
      have hi : (ys ++ x :: xs)[ys.length]? = some x := by
        rw [List.getElem?_append_right (Nat.le_refl _), Nat.sub_self, List.getElem?_cons_zero]
      obtain ⟨hlt, -⟩ := List.getElem?_eq_some_iff.mp hi
      have hpeak : s.stackTop + needVector (t :: ts) = max (s.stackTop + 1)
          (max (s.stackTop + 1 + t.need) (s.stackTop + needVector ts)) := by
        rw [needVector]
        omega
      rw [Prints, hpeak]
      refine Peaks.spend ?_ (printVector_turn hlt)
      refine Peaks.bind (element_peaks hh hk hv hvec hi (Nat.lt_trans hlt hlen)) ?_
      rintro s1 ⟨rfl, hroom⟩
      refine Peaks.bind (printRec_top hh t (Vm.stk_push_top s x) hroom ht (by
        show s.world.objects.length + t.size < 2 ^ 64
        omega)) ?_
      rintro ⟨s1, ws⟩ ⟨hprint, hws⟩
      obtain ⟨s2, hpop, hkept⟩ := hprint.drop
      refine Peaks.after (settles_of_eq hpop) ?_
      have htop2 : s2.stackTop = s.stackTop := hkept.stackTop
      have hlen2 := hkept.length
      have hsplit : ys ++ x :: xs = (ys ++ [x]) ++ xs := by simp
      have hcount : ys.length + 1 = (ys ++ [x]).length := by simp
      rw [hsplit] at hvec hlen
      have hloop := printVector_peaks hh ts (ys ++ [x]) hk (hkept.stk hk hv) (htop2 ▸ hs)
        (hvec.extends hkept.objects) hlen (holdsAll_extends hkept.objects hts) (by omega)
      rw [Prints, htop2, ← hcount, ← hsplit] at hloop
      refine hloop.andThen ?_
      rintro ⟨s3, rest⟩ ⟨hkept3, hws3⟩
      refine ⟨_, settles_const _, ?_, ?_⟩
      · exact (hkept.trans hkept3).mono (by rw [sizeAll]; omega)
      · exact ((writes_separator ys.length).append hws).append hws3

end

/-! ## What the top of the stack hides -/

namespace Printed

/-- What `print_rec` goes for, where `top` is on top of the stack. -/
def seen (top t : Printed) : Printed := if top.IsSeq then top else t

/-- What it makes of the value `v`. -/
def shown (c : Printf) (top t : Printed) (v : Value) : Printed :=
  if t.IsSeq ∧ ¬ top.IsSeq then
    .scalar (tagged c ['s', 'e', 'q', 'u', 'e', 'n', 'c', 'e'] v)
  else seen top t

/-- `top` does not hide the value from `print_rec`, and there is room on a stack
of this height. -/
structure Unshadowed (height : Nat) (top t : Printed) : Prop where
  plain : t.IsSeq → top.IsSeq
  text : (seen top t).render = t.render
  room : height + (seen top t).need ≤ stackSize

/-- The same where only what goes to `stdout` is looked at on `fp`. -/
structure UnshadowedOn (fp : File) (height : Nat) (top t : Printed) : Prop where
  plain : t.IsSeq → top.IsSeq
  text : (if fp = .stdout then (seen top t).render else []) = t.render
  room : height + (seen top t).need ≤ stackSize

theorem render_seq_head {t : Printed} (ht : t.IsSeq) : t.render.head? = some 0x28#8 := by
  cases t with
  | seq ts => rfl
  | scalar text => exact ht.elim
  | vector ts => exact ht.elim

theorem seen_self (t : Printed) : seen t t = t := ite_self t

/-- What is shown decides. -/
theorem unshadowedOn_iff_shown (fp : File) (height : Nat) (top t : Printed) (c : Printf)
    (v : Value) : UnshadowedOn fp height top t
      ↔ (if fp = .stdout then (shown c top t v).render else []) = t.render
        ∧ height + (shown c top t v).need ≤ stackSize := by
  by_cases hhid : t.IsSeq ∧ ¬ top.IsSeq
  · refine iff_of_false (fun h => hhid.2 (h.plain hhid.1)) fun ⟨htext, _⟩ => ?_
    have hhead := render_seq_head hhid.1
    rw [← htext, shown, if_pos hhid] at hhead
    split at hhead
    · exact absurd (Option.some.inj hhead) (by simp)
    · cases hhead
  · rw [shown, if_neg hhid]
    refine ⟨fun h => ⟨h.text, h.room⟩, fun ⟨htext, hroom⟩ => ⟨fun ht => ?_, htext, hroom⟩⟩
    exact not_not.mp fun htop => hhid ⟨ht, htop⟩

theorem unshadowed_iff_shown (height : Nat) (top t : Printed) (c : Printf) (v : Value) :
    Unshadowed height top t
      ↔ (shown c top t v).render = t.render ∧ height + (shown c top t v).need ≤ stackSize := by
  have hon := unshadowedOn_iff_shown .stdout height top t c v
  rw [if_pos rfl] at hon
  rw [← hon]
  exact ⟨fun h => ⟨h.plain, (if_pos rfl).trans h.text, h.room⟩,
    fun h => ⟨h.plain, (if_pos rfl).symm.trans h.text, h.room⟩⟩

/-- With the output redirected, nothing may have to be written. -/
theorem unshadowedOn_all_iff {fp : File} {height : Nat} {ts : List Printed} {last : Printed}
    (hlast : last ∈ ts) : (∀ t ∈ ts, UnshadowedOn fp height last t)
      ↔ (fp = .stdout ∨ ∀ t ∈ ts, t.render = []) ∧ ∀ t ∈ ts, Unshadowed height last t := by
  by_cases hfp : fp = .stdout
  · subst hfp
    refine ⟨fun h => ⟨.inl rfl, fun t ht => ?_⟩, fun ⟨_, h⟩ t ht => ?_⟩
    · obtain ⟨hplain, htext, hroom⟩ := h t ht
      exact ⟨hplain, (if_pos rfl).symm.trans htext, hroom⟩
    · obtain ⟨hplain, htext, hroom⟩ := h t ht
      exact ⟨hplain, (if_pos rfl).trans htext, hroom⟩
  · constructor
    · intro h
      have hnil : ∀ t ∈ ts, t.render = [] := fun t ht => by
        have htext := (h t ht).text
        rw [if_neg hfp] at htext
        exact htext.symm
      have hplain : ¬ last.IsSeq := fun hseq => by
        have hhead := render_seq_head hseq
        rw [hnil last hlast] at hhead
        cases hhead
      refine ⟨.inr hnil, fun t ht => ⟨(h t ht).plain, ?_, (h t ht).room⟩⟩
      rw [seen, if_neg hplain]
    · rintro ⟨hnil, h⟩ t ht
      refine ⟨(h t ht).plain, ?_, (h t ht).room⟩
      rw [if_neg hfp, hnil.resolve_left hfp t ht]

end Printed

/-- `print_rec` renders a sequence that is not on top as a pointer, or as the
sequence on top. -/
theorem printRec_prints (hh : h.Exact) {k : Nat} {u : Value} {t top : Printed} (hk : 1 ≤ k)
    (hv : s.stk k = .ok v) (ht : t.Holds c h s.world v) (hu : s.stk 1 = .ok u)
    (htop : top.Holds c h s.world u) (hs : s.stackTop ≤ stackSize)
    (hmem : s.world.objects.length + (seen top t).size < 2 ^ 64) :
    Prints s (shown c top t v).need (shown c top t v).size (shown c top t v).render
      (fun fuel => printRec c h fuel s k) := by
  by_cases hseq : top.IsSeq
  · have hseen : seen top t = top := if_pos hseq
    have hshown : shown c top t v = top := by rw [shown, if_neg (fun h => h.2 hseq), hseen]
    rw [hshown]
    rw [hseen] at hmem
    cases top with
    | scalar text => exact hseq.elim
    | vector ts => exact hseq.elim
    | seq ts =>
        obtain ⟨-, xs, hxs, hall⟩ := id htop
        exact prints_seq hv hu (htop.isSeq_iff.mpr trivial)
          (printSeq_peaks hh ts 0 hu hs hxs hall hmem)
  · have hplain : u.type.suType ≠ .seq := fun h => hseq (htop.isSeq_iff.mp h)
    have hseen : seen top t = t := if_neg hseq
    rw [shown, hseen]
    rw [hseen] at hmem
    cases t with
    | scalar text =>
        obtain ⟨hvec, hmap, -, htext⟩ := ht
        rw [if_neg (fun h => h.1)]
        exact Peaks.spend (peaks_ok (settles_const _) hs ⟨.rfl, writes_one text⟩)
          (printRec_scalar hv hu hplain hvec hmap htext)
    | vector ts =>
        obtain ⟨xs, hvec, hlen, hall⟩ := ht
        rw [if_neg (fun h => h.1)]
        exact prints_vector hv hu hplain hvec
          (printVector_peaks hh ts [] hk hv hs hvec hlen hall hmem)
    | seq ts =>
        have htype := ht.isSeq_iff.mpr trivial
        rw [if_pos ⟨trivial, hseq⟩]
        exact Peaks.spend (peaks_ok (settles_const _) hs ⟨.rfl, writes_one _⟩)
          (printRec_scalar hv hu hplain (by rw [htype]; nofun) (by rw [htype]; nofun)
            (stringify_seq ht))

/-! ## `print` -/

/-- The values on top of the stack, to be printed as these. -/
def OnTop (c : Printf) (h : Host) (s : Vm) : List Printed → Prop
  | [] => True
  | t :: ts => (∃ v, s.stk (ts.length + 1) = .ok v ∧ t.Holds c h s.world v) ∧ OnTop c h s ts

theorem OnTop.kept {n : Nat} (hk : Stacked s s' 0 n) : ∀ {ts : List Printed}, OnTop c h s ts →
    OnTop c h s' ts
  | [], _ => trivial
  | _ :: _, ⟨⟨v, hv, ht⟩, hts⟩ =>
      ⟨⟨v, hk.stk (Nat.le_add_left ..) hv, ht.extends hk.objects⟩, hts.kept hk⟩

/-- What one turn of `print` leaves on `fp`. -/
theorem Writes.turn {ws : List Write} {text : List Byte} (hws : Writes ws text) (fp : File) :
    textOn fp (ws ++ [(fp, atom ['\t'])]) = (if fp = .stdout then text else []) ++ atom ['\t'] := by
  rw [textOn, List.filter_append, List.flatMap_append]
  congr 1
  · split
    · rename_i hfp
      subst hfp
      rw [List.filter_eq_self.mpr fun x hx => decide_eq_true (hws.1 x hx), hws.2]
    · rename_i hfp
      rw [List.filter_eq_nil_iff.mpr fun x hx => ?_]
      · rfl
      · rw [hws.1 x hx, decide_eq_true_eq]
        exact fun h => hfp h.symm
  · simp

/-- The slots of the stack are what they were. -/
def Neutral (s s' : Vm) : Prop :=
  s'.stackTop = s.stackTop ∧ ∀ i < s.stackTop, s'.stack i = s.stack i

/-- Each turn of the loop leaves a rendering on `fp`. -/
def LoopFaithful (c : Printf) (h : Host) (fp : File) (s : Vm) (ts : List Printed) : Prop :=
  ∃ s' turns, Settles (fun fuel => printLoop c h fp fuel s ts.length) (.ok (s', turns))
    ∧ List.Forall₂ (fun t ws => textOn fp ws = t.render ++ atom ['\t']) ts turns ∧ Neutral s s'

/-- One turn, and then the others. -/
theorem loopFaithful_cons {fp : File} {t : Printed} {ts : List Printed} {n : Nat} {ws : List Write}
    {text : List Byte}
    (hset : Settles (fun fuel => printRec c h fuel s (ts.length + 1)) (.ok (s', ws)))
    (hk : Stacked s s' 0 n) (hws : Writes ws text) : LoopFaithful c h fp s (t :: ts)
      ↔ (if fp = .stdout then text else []) = t.render ∧ LoopFaithful c h fp s' ts := by
  have hneutral : ∀ s2, Neutral s s2 ↔ Neutral s' s2 := by
    intro s2
    rw [Neutral, Neutral, hk.stackTop, Nat.add_zero]
    exact and_congr_right fun _ => forall₂_congr fun i hi => by rw [hk.stack i hi]
  constructor
  · rintro ⟨s2, turns, hrun, hall, hneut⟩
    have hrest := Settles.of_bind hrun hset
    have hinj : Function.Injective fun x : Vm × List (List Write) =>
        (x.1, (ws ++ [(fp, atom ['\t'])]) :: x.2) := by
      intro x y hxy
      obtain ⟨h1, h2⟩ := Prod.mk.inj hxy
      exact Prod.ext h1 (List.cons.inj h2).2
    obtain ⟨⟨s2', turns'⟩, hloop, heq⟩ := Settles.of_map
      (f := fun fuel => printLoop c h fp fuel s' ts.length) hinj hrest
    obtain ⟨rfl, rfl⟩ := Prod.mk.inj heq
    obtain ⟨hhead, htail⟩ := List.forall₂_cons.mp hall
    rw [hws.turn] at hhead
    exact ⟨List.append_cancel_right hhead, s2', turns', hloop, htail, (hneutral _).mp hneut⟩
  · rintro ⟨htext, s2, turns, hrest, hall, hneut⟩
    refine ⟨s2, (ws ++ [(fp, atom ['\t'])]) :: turns, hset.bind (hrest.bind (settles_const _)),
      .cons ?_ hall, (hneutral _).mpr hneut⟩
    rw [hws.turn, htext]

theorem loopFaithful_iff (hh : h.Exact) (fp : File) {u : Value} {top : Printed} {n : Nat} :
    ∀ {ts : List Printed} {s : Vm}, OnTop c h s ts → s.stk 1 = .ok u →
      top.Holds c h s.world u → s.stackTop ≤ stackSize → (∀ t ∈ ts, (seen top t).size ≤ n) →
      s.world.objects.length + ts.length * n < 2 ^ 64 →
      (LoopFaithful c h fp s ts ↔ ∀ t ∈ ts, UnshadowedOn fp s.stackTop top t)
  | [], s, _, _, _, _, _, _ =>
      iff_of_true ⟨s, [], settles_const _, .nil, rfl, fun _ _ => rfl⟩ nofun
  | t :: ts, s, ⟨⟨v, hv, ht⟩, hts⟩, hu, htop, hs, hsize, hmem => by
      rw [List.length_cons, Nat.succ_mul] at hmem
      have hsize_t := hsize t List.mem_cons_self
      have hrec := printRec_prints hh (Nat.le_add_left ..) hv ht hu htop hs (by omega)
      rw [List.forall_mem_cons, unshadowedOn_iff_shown fp s.stackTop top t c v]
      by_cases hroom : s.stackTop + (shown c top t v).need ≤ stackSize
      · obtain ⟨⟨s1, ws⟩, hset, hk, hws⟩ := hrec.fits hroom
        have hsize_s : (shown c top t v).size ≤ n := by
          rw [shown]
          split
          · exact Nat.zero_le n
          · exact hsize_t
        have hlen : s1.world.objects.length + ts.length * n < 2 ^ 64 := by
          have hnew : s1.world.objects.length
              ≤ s.world.objects.length + (shown c top t v).size := hk.length
          omega
        have hloop := loopFaithful_iff hh fp (hts.kept hk) (hk.stk (Nat.le_refl 1) hu)
          (htop.extends hk.objects) (hk.stackTop ▸ hs)
          (fun t' ht' => hsize t' (List.mem_cons_of_mem _ ht')) hlen
        rw [hk.stackTop, Nat.add_zero] at hloop
        rw [loopFaithful_cons hset hk hws, hloop]
        exact and_congr_left fun _ => (and_iff_left hroom).symm
      · refine iff_of_false ?_ fun h => hroom h.1.2
        rintro ⟨s', turns, hrun, -, -⟩
        cases hrun.unique (hrec.full (Nat.not_le.mp hroom)).bind_raise

/-- `print` writes the renderings of its arguments to `fp`, one after the
other, and the stack is what it was. -/
def PrintFaithful (c : Printf) (h : Host) (fp : File) (s : Vm) (ts : List Printed) : Prop :=
  ∃ s' turns, Settles (fun fuel => libPrint c h fp fuel s ts.length)
      (.ok (s', turns ++ [[(fp, atom ['\n'])]], 0))
    ∧ List.Forall₂ (fun t ws => textOn fp ws = t.render ++ atom ['\t']) ts turns ∧ Neutral s s'

/-- `print_rec(s, -k)` renders the value there, and the stack is what it was. -/
def RecFaithful (c : Printf) (h : Host) (s : Vm) (k : Nat) (t : Printed) : Prop :=
  ∃ s' ws, Settles (fun fuel => printRec c h fuel s k) (.ok (s', ws))
    ∧ ws.flatMap (·.2) = t.render ∧ Neutral s s'

theorem printFaithful_iff_loop {fp : File} {ts : List Printed} :
    PrintFaithful c h fp s ts ↔ LoopFaithful c h fp s ts := by
  constructor
  · rintro ⟨s', turns, hrun, hall⟩
    have hinj : Function.Injective fun x : Vm × List (List Write) =>
        (x.1, x.2 ++ [[(fp, atom ['\n'])]], 0) := by
      intro x y hxy
      obtain ⟨h1, h2⟩ := Prod.mk.inj hxy
      exact Prod.ext h1 (List.append_cancel_right (Prod.mk.inj h2).1)
    obtain ⟨⟨s2, turns2⟩, hloop, heq⟩ := Settles.of_map
      (f := fun fuel => printLoop c h fp fuel s ts.length) hinj hrun
    obtain ⟨rfl, h2⟩ := Prod.mk.inj heq
    obtain rfl := List.append_cancel_right (Prod.mk.inj h2).1
    exact ⟨s2, turns2, hloop, hall⟩
  · rintro ⟨s', turns, hrun, hall⟩
    exact ⟨s', turns, hrun.bind (settles_const _), hall⟩

theorem recFaithful_iff (hh : h.Exact) {k : Nat} {u : Value} {t top : Printed} (hk : 1 ≤ k)
    (hv : s.stk k = .ok v) (ht : t.Holds c h s.world v) (hu : s.stk 1 = .ok u)
    (htop : top.Holds c h s.world u) (hs : s.stackTop ≤ stackSize)
    (hmem : s.world.objects.length + (seen top t).size < 2 ^ 64) :
    RecFaithful c h s k t ↔ Unshadowed s.stackTop top t := by
  have hrec := printRec_prints hh hk hv ht hu htop hs hmem
  rw [unshadowed_iff_shown s.stackTop top t c v]
  by_cases hroom : s.stackTop + (shown c top t v).need ≤ stackSize
  · obtain ⟨⟨s1, ws⟩, hset, hkept, hws⟩ := hrec.fits hroom
    rw [and_iff_left hroom]
    constructor
    · rintro ⟨s2, ws2, hset2, htext, -⟩
      obtain ⟨rfl, rfl⟩ := Prod.mk.inj (Outcome.ok.inj (hset.unique hset2))
      exact hws.2.symm.trans htext
    · intro htext
      exact ⟨s1, ws, hset, hws.2.trans htext, hkept.stackTop, hkept.stack⟩
  · refine iff_of_false ?_ fun h => hroom h.2
    rintro ⟨s2, ws2, hset2, -⟩
    cases hset2.unique (hrec.full (Nat.not_le.mp hroom))

theorem size_le_sizeAll {t : Printed} : ∀ {ts : List Printed}, t ∈ ts → t.size ≤ sizeAll ts
  | t' :: ts, ht => by
      rw [sizeAll]
      rcases List.mem_cons.mp ht with rfl | ht
      · omega
      · have := size_le_sizeAll ht
        omega

theorem size_seen_le {top t : Printed} {n : Nat} (htop : top.size ≤ n) (ht : t.size ≤ n) :
    (seen top t).size ≤ n := by
  rw [seen]
  split
  · exact htop
  · exact ht

/-- The last of the arguments is on top of the stack. -/
theorem OnTop.last {last : Printed} : ∀ {ts : List Printed}, OnTop c h s ts →
    ts.getLast? = some last → ∃ u, s.stk 1 = .ok u ∧ last.Holds c h s.world u
  | [_], ⟨hv, _⟩, hlast => by
      obtain rfl := Option.some.inj hlast
      exact hv
  | _ :: t :: ts, ⟨_, hts⟩, hlast => by
      rw [List.getLast?_cons_cons] at hlast
      exact hts.last hlast

/-- **What `print` gets right**: arguments that the last of them does not
shadow, on `stdout`, with room for the rests of their sequences. For
`print_rec` the same holds at each index. -/
theorem print_faithful_iff (hh : h.Exact) (hs : s.stackTop ≤ stackSize) :
    (∀ fp ts, OnTop c h s ts → s.world.objects.length + ts.length * sizeAll ts < 2 ^ 64 →
      (PrintFaithful c h fp s ts ↔ (fp = .stdout ∨ ∀ t ∈ ts, t.render = [])
        ∧ ∀ last, ts.getLast? = some last → ∀ t ∈ ts, Unshadowed s.stackTop last t))
    ∧ ∀ k t top v u, 1 ≤ k → s.stk k = .ok v → t.Holds c h s.world v → s.stk 1 = .ok u →
      top.Holds c h s.world u → s.world.objects.length + top.size + t.size < 2 ^ 64 →
      (RecFaithful c h s k t ↔ Unshadowed s.stackTop top t) := by
  refine ⟨fun fp ts hts hmem => ?_, fun k t top v u hk hv ht hu htop hmem => ?_⟩
  · rw [printFaithful_iff_loop]
    cases hlast : ts.getLast? with
    | none =>
        obtain rfl := List.getLast?_eq_none_iff.mp hlast
        exact iff_of_true ⟨s, [], settles_const _, .nil, rfl, fun _ _ => rfl⟩ ⟨.inr nofun, nofun⟩
    | some last =>
        obtain ⟨u, hu, htop⟩ := hts.last hlast
        have hmem_last := List.mem_of_getLast? hlast
        rw [loopFaithful_iff hh fp hts hu htop hs
          (fun t ht => size_seen_le (size_le_sizeAll hmem_last) (size_le_sizeAll ht)) hmem,
          unshadowedOn_all_iff hmem_last]
        refine and_congr_right fun _ => ⟨fun h' _ heq => ?_, fun h' => h' last rfl⟩
        obtain rfl := Option.some.inj heq
        exact h'
  · have hsize : (seen top t).size ≤ top.size + t.size :=
      size_seen_le (Nat.le_add_right ..) (Nat.le_add_left ..)
    exact recFaithful_iff hh hk hv ht hu htop hs (by omega)

end Printing

/-- Integers as they are, and pointers in hexadecimal. -/
def hexPrintf : Printf where
  int := fun i => atom (toString i).toList
  double := fun _ => []
  pointer := fun p => atom ('0' :: 'x' :: Nat.toDigits 16 p.toNat)

/-- `vs` on the stack, and in the world the string `"a"`, the list of it, and
the string `"b"`. -/
def printState (vs : List Value) : Vm :=
  { seqState vs with
    world := ⟨[.string 0 [0x61#8, 0#8], .cell (objValue .string 1) ⟨.nil, 0#64⟩,
      .string 0 [0x62#8, 0#8]], mapCreateEmpty, 0, 0, 0⟩ }

theorem idleHost_exact : idleHost.Exact := by
  intro i hi
  have hnat : BitVec.ofInt 64 (i : Int) = BitVec.ofNat 64 i := BitVec.ofInt_natCast ..
  have hwidth : (BitVec.ofNat 64 i).setWidth 32 = BitVec.ofNat 32 i := by
    apply BitVec.eq_of_toNat_eq
    simp
  have hint : (BitVec.ofNat 32 i).toInt = i := by
    rw [BitVec.toInt_eq_toNat_of_lt] <;> simp <;> omega
  change Outcome.ok ((BitVec.ofInt 64 (i : Int)).setWidth 32).toInt = _
  rw [hnat, hwidth, hint]

theorem string_holds (vs : List Value) : (Printed.scalar [0x62#8]).Holds hexPrintf idleHost
    (printState vs).world (objValue .string 3) := by
  refine ⟨nofun, nofun, nofun, rfl⟩

theorem list_holds (vs : List Value) : (Printed.seq [.scalar [0x61#8]]).Holds hexPrintf idleHost
    (printState vs).world (objValue .cellSeq 2) := by
  refine ⟨nofun, [objValue .string 1], .cell rfl rfl (.nil rfl), objValue .string 1, [], rfl, ?_,
    rfl⟩
  exact ⟨nofun, nofun, nofun, rfl⟩

/-- A list alone is printed as it is. -/
theorem print_faithful_list : PrintFaithful hexPrintf idleHost .stdout
    (printState [objValue .cellSeq 2]) [.seq [.scalar [0x61#8]]] := by
  have htop : OnTop hexPrintf idleHost (printState [objValue .cellSeq 2])
      [.seq [.scalar [0x61#8]]] := ⟨⟨objValue .cellSeq 2, rfl, list_holds _⟩, trivial⟩
  have hiff := (print_faithful_iff (c := hexPrintf) idleHost_exact
    (s := printState [objValue .cellSeq 2]) (by simp [printState, seqState, stackSize])).1 .stdout _
    htop (by simp [printState, sizeAll, size])
  refine hiff.mpr ⟨.inl rfl, fun last hlast t ht => ?_⟩
  obtain rfl : Printed.seq [.scalar [0x61#8]] = last := Option.some.inj hlast
  obtain rfl := List.mem_singleton.mp ht
  refine ⟨id, by rw [seen_self], ?_⟩
  simp [seen_self, printState, seqState, need, needSeq, stackSize]

/-- The list before a string is a pointer. -/
theorem print_shadowed_fails :
    libPrint hexPrintf idleHost .stdout 1 (printState [objValue .cellSeq 2, objValue .string 3]) 2
      = .ok (printState [objValue .cellSeq 2, objValue .string 3],
        [[(.stdout, atom ['<', 's', 'e', 'q', 'u', 'e', 'n', 'c', 'e', ' ', '0', 'x', '2', '>']),
            out ['\t']], [out ['b'], out ['\t']], [out ['\n']]], 0)
      ∧ OnTop hexPrintf idleHost (printState [objValue .cellSeq 2, objValue .string 3])
        [.seq [.scalar [0x61#8]], .scalar [0x62#8]]
      ∧ ¬ PrintFaithful hexPrintf idleHost .stdout
        (printState [objValue .cellSeq 2, objValue .string 3])
        [.seq [.scalar [0x61#8]], .scalar [0x62#8]] := by
  have hts : OnTop hexPrintf idleHost (printState [objValue .cellSeq 2, objValue .string 3])
      [.seq [.scalar [0x61#8]], .scalar [0x62#8]] :=
    ⟨⟨objValue .cellSeq 2, rfl, list_holds _⟩, ⟨objValue .string 3, rfl, string_holds _⟩, trivial⟩
  refine ⟨rfl, hts, fun hall => ?_⟩
  rw [printFaithful_iff_loop, loopFaithful_iff idleHost_exact .stdout hts (u := objValue .string 3)
    rfl (string_holds _) (by simp [printState, seqState, stackSize])
    (n := 1) (by simp [seen, IsSeq, size, sizeAll]) (by simp [printState])] at hall
  exact (hall _ List.mem_cons_self).plain trivial

end Saurus
