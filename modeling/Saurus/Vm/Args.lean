import Mathlib.Data.List.Forall2
import Saurus.Vm.Step

/-!
# Checking the arguments of a native

`su_check_arguments` and the loop under it. The variadic part is the list
`types`; taking a further argument from it than was passed has no meaning.
`narg` is `s->narg`, the number of arguments below `stack_top` that the
native was called with.

The loop counts `i` down from `start` and stops at `num`. Called with both
equal it compares nothing; called with `start = s->narg` it compares as many
arguments as there are extra ones. The two theorems at the end say for which
calls that makes no difference.
-/

namespace Saurus

open Basis

/-- The type `su_type` gives for a tag: both kinds of sequence are `SU_SEQ`. -/
def ValType.suType : ValType → ValType
  | .cellSeq | .itSeq => .seq
  | t => t

/-- An argument of type `a` is accepted where `b` is asked for. -/
def Accepts (a b : ValType) : Prop := b = .nil ∨ a = b

instance (a b : ValType) : Decidable (Accepts a b) := inferInstanceAs (Decidable (_ ∨ _))

/-- One comparison of `check_args`, on the argument at `pos`. The names for
the message are looked up before the types are compared. -/
def checkArg (pos : Nat) (a b : ValType) : Outcome Unit :=
  if b ≠ .nil then do
    let want ← typeName b
    let got ← typeName a
    Outcome.check (decide (a = b))
      ("Expected argument " ++ toString pos ++ " to be of type '" ++ want
        ++ "', but it is of type '" ++ got ++ "'.")
  else pure ()

namespace Vm

/-- `su_type(s, -i)` -/
def suType (s : Vm) (i : Nat) : Outcome ValType := do
  let v ← s.stk i
  pure v.type.suType

/-- The loop of `check_args` with `i - num` turns left. -/
def checkArgsLoop (s : Vm) (start num : Nat) : Nat → List ValType → Outcome Unit
  | 0, _ => pure ()
  | k + 1, types => do
      let i := num + (k + 1)
      let a ← s.suType i
      let b ← Outcome.ofOption types.head?
      checkArg (start - i) a b
      checkArgsLoop s start num k types.tail

/-- `check_args` -/
def checkArgs (s : Vm) (types : List ValType) (start num : Nat) : Outcome Unit :=
  s.checkArgsLoop start num (start - num) types

/-- `su_check_arguments`, in a native that was called with `narg` arguments. -/
def suCheckArguments (s : Vm) (narg : Nat) (num : Int) (types : List ValType) :
    Outcome Unit :=
  if (narg : Int) ≠ num then
    if num < 0 then
      if num.natAbs > narg then
        .raise ("To few arguments passed to function. Expected at least "
          ++ toString num.natAbs ++ " but got " ++ toString narg ++ ".")
      else s.checkArgs types narg num.natAbs
    else
      .raise ("Bad number of arguments to function. Expected " ++ toString num
        ++ " but got " ++ toString narg ++ ".")
  else s.checkArgs types num.natAbs num.natAbs

/-- The arguments of the native that runs. -/
def args (s : Vm) (narg : Nat) : List Value := s.window (s.stackTop - narg) narg

/-- A native has been called with `narg` arguments, all of them values of the
language. -/
structure CalledWith (s : Vm) (narg : Nat) : Prop where
  room : narg ≤ s.stackTop
  named : ∀ v ∈ s.args narg, v.type ≠ .inv

/-- The first `k` arguments are accepted by the first `k` types. -/
def Fits (s : Vm) (narg k : Nat) (types : List ValType) : Prop :=
  List.Forall₂ (fun v t => Accepts v.type.suType t) ((s.args narg).take k) (types.take k)

/-- The arguments `su_check_arguments(s, num, types...)` is to let through. -/
def Admitted (s : Vm) (narg : Nat) (num : Int) (types : List ValType) : Prop :=
  (if num < 0 then num.natAbs ≤ narg else (narg : Int) = num) ∧
    s.Fits narg num.natAbs types

end Vm

/-- `o` completes when `p` holds and raises an error when it does not. -/
def Decides (o : Outcome Unit) (p : Prop) : Prop :=
  (p → o = .ok ()) ∧ (¬ p → o.Raises)

theorem decides_ok {p : Prop} : Decides (.ok ()) p ↔ p := by
  refine ⟨fun h => by_contra fun hp => ?_, fun hp => ⟨fun _ => rfl, fun h => absurd hp h⟩⟩
  obtain ⟨msg, hmsg⟩ := h.2 hp
  cases hmsg

theorem decides_raises {o : Outcome Unit} {p : Prop} (ho : o.Raises) : Decides o p ↔ ¬ p := by
  obtain ⟨msg, rfl⟩ := ho
  refine ⟨fun h hp => ?_, fun hp => ⟨fun h => absurd h hp, fun _ => ⟨msg, rfl⟩⟩⟩
  cases h.1 hp

theorem not_decides_fault {p : Prop} : ¬ Decides .fault p := by
  intro h
  by_cases hp : p
  · cases h.1 hp
  · obtain ⟨msg, hmsg⟩ := h.2 hp
    cases hmsg

/-! ## One comparison -/

theorem typeName_ok {t : ValType} (h : t ≠ .inv) : ∃ name, typeName t = .ok name := by
  cases t <;> first | exact ⟨_, rfl⟩ | exact absurd rfl h

theorem ValType.suType_ne_inv {t : ValType} (h : t ≠ .inv) : t.suType ≠ .inv := by
  cases t <;> first | exact absurd rfl h | exact fun h => nomatch h

theorem checkArg_accepts {pos : Nat} {a b : ValType} (ha : a ≠ .inv) (h : Accepts a b) :
    checkArg pos a b = .ok () := by
  unfold checkArg
  rcases h with rfl | rfl
  · rfl
  · obtain ⟨name, hname⟩ := typeName_ok ha
    split
    · simp [hname]
    · rfl

theorem checkArg_rejects (pos : Nat) {a b : ValType} (ha : a ≠ .inv) (hb : b ≠ .inv)
    (h : ¬ Accepts a b) : (checkArg pos a b).Raises := by
  obtain ⟨hnil, hne⟩ := not_or.mp h
  obtain ⟨got, hgot⟩ := typeName_ok ha
  obtain ⟨want, hwant⟩ := typeName_ok hb
  unfold checkArg
  rw [if_pos hnil, hwant, hgot, decide_eq_false hne]
  exact ⟨_, rfl⟩

/-! ## The loop -/

namespace Vm

theorem suType_eq {s : Vm} {i : Nat} (h : i ≤ s.stackTop) :
    s.suType i = .ok (s.stack (s.stackTop - i)).type.suType := by
  rw [suType, stk, decide_eq_true h]
  rfl

/-- The argument `STK(-i)` and those up to the last one of the loop. -/
abbrev rest (s : Vm) (num k : Nat) : List Value :=
  slice s.stack (s.stackTop - (num + k)) k

/-- What the loop does with the types it is given: it compares as long as
there are turns and types, and has no meaning when it runs out of types. -/
theorem checkArgsLoop_spec {s : Vm} (start : Nat) {num : Nat} :
    ∀ {k : Nat} {types : List ValType}, num + k ≤ s.stackTop →
      (∀ v ∈ s.rest num k, v.type ≠ .inv) → .inv ∉ types →
      (List.Forall₂ (fun v t => Accepts v.type.suType t)
          ((s.rest num k).take types.length) (types.take k) →
        s.checkArgsLoop start num k types = if k ≤ types.length then .ok () else .fault) ∧
      (¬ List.Forall₂ (fun v t => Accepts v.type.suType t)
          ((s.rest num k).take types.length) (types.take k) →
        (s.checkArgsLoop start num k types).Raises)
  | 0, types, _, _, _ => by
      refine ⟨fun _ => by simp [checkArgsLoop], fun h => absurd ?_ h⟩
      simp [rest]
  | k + 1, [], hroom, _, _ => by
      refine ⟨fun _ => ?_, fun h => absurd ?_ h⟩
      · simp [checkArgsLoop, suType_eq hroom]
      · simp
  | k + 1, t :: types, hroom, hv, ht => by
      have hrest : s.rest num (k + 1) =
          s.stack (s.stackTop - (num + (k + 1))) :: s.rest num k := by
        rw [rest, slice_succ, show s.stackTop - (num + (k + 1)) + 1 = s.stackTop - (num + k) by
          omega]
      rw [hrest] at hv ⊢
      obtain ⟨hhead, htail⟩ := List.forall_mem_cons.mp hv
      obtain ⟨hts, htt⟩ := not_or.mp (List.mem_cons.not.mp ht)
      obtain ⟨ihok, ihraise⟩ :=
        checkArgsLoop_spec start (Nat.le_of_succ_le hroom) htail htt
      have hne := ValType.suType_ne_inv hhead
      simp only [checkArgsLoop, suType_eq hroom, Outcome.ok_bind, List.head?_cons,
        Outcome.ofOption_some, List.tail_cons, List.length_cons, List.take_succ_cons,
        List.forall₂_cons, Nat.add_le_add_iff_right]
      by_cases hacc : Accepts (s.stack (s.stackTop - (num + (k + 1)))).type.suType t
      · rw [checkArg_accepts hne hacc]
        exact ⟨fun h => ihok h.2, fun h => ihraise fun hr => h ⟨hacc, hr⟩⟩
      · refine ⟨fun h => absurd h.1 hacc, fun _ => ?_⟩
        obtain ⟨msg, hmsg⟩ := checkArg_rejects (start - (num + (k + 1))) hne
          (Ne.symm hts) hacc
        rw [hmsg]
        exact ⟨msg, rfl⟩

/-! ## Which calls are decided -/

/-- Where the turns of the loop make the difference: with an exact count there
are none, so the arguments had better fit; with a minimum of `n` there are
`narg - n`, so either a bad argument is among those, or they are at most `n`
and all of the first `n` fit. -/
def LoopSuffices (s : Vm) (narg : Nat) (num : Int) (types : List ValType) : Prop :=
  if num < 0 then
    narg < num.natAbs ∨ ¬ s.Fits narg (min (narg - num.natAbs) num.natAbs) types ∨
      (narg ≤ 2 * num.natAbs ∧ s.Fits narg num.natAbs types)
  else (narg : Int) = num → s.Fits narg num.natAbs types

theorem Fits.mono {s : Vm} {narg m n : Nat} {types : List ValType} (hmn : m ≤ n)
    (h : s.Fits narg n types) : s.Fits narg m types := by
  have h' := List.forall₂_take m h
  rwa [List.take_take, List.take_take, Nat.min_eq_left hmn] at h'

theorem rest_eq_take {s : Vm} {narg num : Nat} (h : num ≤ narg) :
    s.rest num (narg - num) = (s.args narg).take (narg - num) := by
  have hlen : narg = (narg - num) + num := by omega
  rw [rest, args, window, Nat.add_sub_cancel' h]
  conv_rhs => rw [hlen, slice_add]
  rw [List.take_left' (by simp)]
  congr 1
  omega

/-- `check_args` called for a minimum of `num` arguments. -/
theorem checkArgs_spec {s : Vm} {narg num : Nat} {types : List ValType}
    (hs : s.CalledWith narg) (ht : .inv ∉ types) (hl : types.length = num) (h : num ≤ narg) :
    (s.Fits narg (min (narg - num) num) types →
      s.checkArgs types narg num = if narg - num ≤ num then .ok () else .fault) ∧
    (¬ s.Fits narg (min (narg - num) num) types → (s.checkArgs types narg num).Raises) := by
  have hv : ∀ v ∈ s.rest num (narg - num), v.type ≠ .inv := by
    rw [rest_eq_take h]
    exact fun v hv => hs.named v (List.mem_of_mem_take hv)
  have hroom : num + (narg - num) ≤ s.stackTop := by
    rw [Nat.add_sub_cancel' h]; exact hs.room
  have hspec := checkArgsLoop_spec narg hroom hv ht
  have htypes : types.take (narg - num) = types.take (min (narg - num) num) := by
    rw [← hl, List.take_eq_take_min]
  rwa [rest_eq_take h, List.take_take, hl, Nat.min_comm num, htypes] at hspec

/-- With an exact count the types are never looked at. -/
theorem suCheckArguments_exact {s : Vm} {narg : Nat} {num : Int} {types : List ValType}
    (hnum : ¬ num < 0) :
    Decides (s.suCheckArguments narg num types) (s.Admitted narg num types) ↔
      ((narg : Int) = num → s.Fits narg num.natAbs types) := by
  simp only [suCheckArguments, Admitted, if_neg hnum]
  by_cases hnarg : (narg : Int) = num
  · rw [if_neg (not_not.mpr hnarg), checkArgs, Nat.sub_self]
    exact decides_ok.trans ⟨fun h _ => h.2, fun h => ⟨hnarg, h hnarg⟩⟩
  · rw [if_pos hnarg]
    exact (decides_raises ⟨_, rfl⟩).trans
      ⟨fun _ h => absurd h hnarg, fun _ h => hnarg h.1⟩

/-- With a minimum there is one turn for each extra argument. -/
theorem suCheckArguments_min {s : Vm} {narg : Nat} {num : Int} {types : List ValType}
    (hs : s.CalledWith narg) (ht : .inv ∉ types) (hl : types.length = num.natAbs)
    (hnum : num < 0) :
    Decides (s.suCheckArguments narg num types) (s.Admitted narg num types) ↔
      (narg < num.natAbs ∨ ¬ s.Fits narg (min (narg - num.natAbs) num.natAbs) types ∨
        (narg ≤ 2 * num.natAbs ∧ s.Fits narg num.natAbs types)) := by
  simp only [suCheckArguments, Admitted, if_pos hnum, if_pos (show (narg : Int) ≠ num by omega)]
  by_cases hfew : num.natAbs > narg
  · rw [if_pos hfew]
    exact (decides_raises ⟨_, rfl⟩).trans
      ⟨fun _ => Or.inl hfew, fun _ h => absurd h.1 (Nat.not_le.mpr hfew)⟩
  · rw [if_neg hfew]
    have hle := Nat.not_lt.mp hfew
    obtain ⟨hok, hraise⟩ := checkArgs_spec hs ht hl hle
    by_cases hfit : s.Fits narg (min (narg - num.natAbs) num.natAbs) types
    · rw [hok hfit]
      by_cases hturns : narg - num.natAbs ≤ num.natAbs
      · rw [if_pos hturns]
        refine decides_ok.trans ⟨fun h => Or.inr (Or.inr ⟨by omega, h.2⟩), ?_⟩
        rintro (hlt | hbad | ⟨-, hall⟩)
        · exact absurd hlt hfew
        · exact absurd hfit hbad
        · exact ⟨hle, hall⟩
      · rw [if_neg hturns]
        refine ⟨fun h => absurd h not_decides_fault, ?_⟩
        rintro (hlt | hbad | ⟨hfew', -⟩)
        · exact absurd hlt hfew
        · exact absurd hfit hbad
        · omega
    · refine (decides_raises (hraise hfit)).trans
        ⟨fun _ => Or.inr (Or.inl hfit), fun _ h => hfit (h.2.mono (Nat.min_le_right ..))⟩

/-- `su_check_arguments` lets through exactly the arguments it is given types
for, and raises an error for all others, on the calls for which the turns of
the loop suffice and on no others. -/
theorem su_check_arguments_exact_iff {s : Vm} {narg : Nat} {num : Int}
    {types : List ValType} (hs : s.CalledWith narg) (ht : .inv ∉ types)
    (hl : types.length = num.natAbs) :
    Decides (s.suCheckArguments narg num types) (s.Admitted narg num types) ↔
      s.LoopSuffices narg num types := by
  unfold LoopSuffices
  by_cases hnum : num < 0
  · rw [if_pos hnum]
    exact suCheckArguments_min hs ht hl hnum
  · rw [if_neg hnum]
    exact suCheckArguments_exact hnum

/-- `(first 5)`: the slots of a native and of its one argument. -/
def firstOfFive : Vm where
  world := ⟨[], mapCreateEmpty, 0, 0, 0⟩
  stack := fun i => if i = 0 then ⟨.nativefunc, 1#64⟩ else ⟨.number, 0x4014000000000000#64⟩
  stackTop := 2
  frames := fun _ => ⟨⟨0, ⟨[], [], [], [], [], []⟩, [], []⟩, 0, 0⟩
  frameTop := 0
  func := ⟨0, ⟨[], [], [], [], [], []⟩, [], []⟩
  pc := 0

theorem firstOfFive_calledWith : firstOfFive.CalledWith 1 :=
  ⟨by decide, by decide⟩

/-- Asked for a number, the call is right to go through. -/
theorem su_check_arguments_exact_number :
    Decides (firstOfFive.suCheckArguments 1 1 [.number])
      (firstOfFive.Admitted 1 1 [.number]) :=
  (su_check_arguments_exact_iff firstOfFive_calledWith (by decide) rfl).mpr
    fun _ => .cons (Or.inr rfl) .nil

/-- A number passes for the sequence `first` asks for. -/
theorem first_accepts_number :
    ¬ ∀ (s : Vm) (narg : Nat) (num : Int) (types : List ValType),
      s.CalledWith narg → .inv ∉ types → types.length = num.natAbs →
        Decides (s.suCheckArguments narg num types) (s.Admitted narg num types) := by
  intro h
  obtain ⟨-, hraise⟩ := h firstOfFive 1 1 [.seq] firstOfFive_calledWith (by decide) rfl
  have hnot : ¬ firstOfFive.Admitted 1 1 [.seq] := by
    rintro ⟨-, hfit⟩
    cases hfit with
    | cons hacc _ => exact absurd hacc (by decide)
  obtain ⟨msg, hmsg⟩ := hraise hnot
  cases hmsg

end Vm

end Saurus
