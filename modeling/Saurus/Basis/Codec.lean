import Mathlib.Algebra.Group.Int.Defs
import Mathlib.Algebra.Group.Nat.Defs
import Mathlib.Tactic.Common

/-!
# Readers of byte formats

A reader consumes input held in a state `σ`; what input a state still
holds is a relation `R st bs` given by the instance, so a reader may work
on a list, on a buffer with chunks to come, or on anything else. `Reads R r
bs a` is the specification of a reader against a writer: wherever the input
begins with `bs`, `r` returns `a` and leaves what follows. The rules below
compose such specifications along `>>=` and over repetition, for any suffix.

Numbers are stored with the least significant byte first.
-/

namespace Basis

namespace Codec

/-! ## Little-endian numbers -/

/-- The low `w` bytes of `n`. -/
def leBytes : Nat → Nat → List (BitVec 8)
  | 0, _ => []
  | w + 1, n => BitVec.ofNat 8 n :: leBytes w (n / 256)

def leNat : List (BitVec 8) → Nat
  | [] => 0
  | b :: bs => b.toNat + 256 * leNat bs

@[simp] theorem length_leBytes : ∀ (w n : Nat), (leBytes w n).length = w
  | 0, _ => rfl
  | w + 1, n => by rw [leBytes, List.length_cons, length_leBytes w]

/-- Writing keeps the number up to the width of the field. -/
theorem leNat_leBytes : ∀ (w n : Nat), leNat (leBytes w n) = n % 256 ^ w
  | 0, n => by rw [leBytes, leNat, Nat.pow_zero, Nat.mod_one]
  | w + 1, n => by
      have hpow : 256 ^ (w + 1) = 256 * 256 ^ w := by rw [Nat.pow_succ, Nat.mul_comm]
      rw [leBytes, leNat, leNat_leBytes w, BitVec.toNat_ofNat, hpow, Nat.mod_mul]

theorem leNat_lt : ∀ bs : List (BitVec 8), leNat bs < 256 ^ bs.length
  | [] => Nat.one_pos
  | b :: bs => by
      have hb := b.isLt
      have hbs := leNat_lt bs
      rw [leNat, List.length_cons, Nat.pow_succ]
      omega

/-- Every string of bytes is the numeral of its number. -/
theorem leBytes_leNat : ∀ bs : List (BitVec 8), leBytes bs.length (leNat bs) = bs
  | [] => rfl
  | b :: bs => by
      have hb : (b.toNat + 256 * leNat bs) / 256 = leNat bs := by have := b.isLt; omega
      have hmod : BitVec.ofNat 8 (b.toNat + 256 * leNat bs) = b := by
        apply BitVec.eq_of_toNat_eq
        rw [BitVec.toNat_ofNat]
        have := b.isLt
        omega
      rw [List.length_cons, leBytes, leNat, hb, hmod, leBytes_leNat bs]

/-! ## Specifications of readers -/

section Reads

variable {ε σ α β γ : Type}

/-- On input that begins with `bs` the reader returns `a` and leaves the
rest. -/
def Reads (R : σ → List γ → Prop) (r : StateT σ (Except ε) α) (bs : List γ) (a : α) : Prop :=
  ∀ st rest, R st (bs ++ rest) → ∃ st', r st = .ok (a, st') ∧ R st' rest

variable {R : σ → List γ → Prop}

theorem Reads.pure (a : α) : Reads R (pure a : StateT σ (Except ε) α) [] a :=
  fun st _ h => ⟨st, rfl, h⟩

theorem Reads.bind {r : StateT σ (Except ε) α} {f : α → StateT σ (Except ε) β}
    {bs cs : List γ} {a : α} {b : β} (hr : Reads R r bs a) (hf : Reads R (f a) cs b) :
    Reads R (r >>= f) (bs ++ cs) b := by
  intro st rest h
  rw [List.append_assoc] at h
  obtain ⟨st1, h1, hR1⟩ := hr st _ h
  obtain ⟨st2, h2, hR2⟩ := hf st1 _ hR1
  refine ⟨st2, ?_, hR2⟩
  change (r st >>= fun p => f p.1 p.2) = _
  rw [h1]
  exact h2

theorem Reads.of_eq {r : StateT σ (Except ε) α} {bs cs : List γ} {a b : α}
    (hr : Reads R r bs a) (hbs : bs = cs) (hab : a = b) : Reads R r cs b :=
  hbs ▸ hab ▸ hr

theorem Reads.map {r : StateT σ (Except ε) α} {bs : List γ} {a : α} (hr : Reads R r bs a)
    (f : α → β) : Reads R (f <$> r) bs (f a) := by
  intro st rest h
  obtain ⟨st1, h1, hR1⟩ := hr st _ h
  refine ⟨st1, ?_, hR1⟩
  change (r st >>= fun p => Except.ok (f p.1, p.2)) = _
  rw [h1]
  rfl

theorem bind_ok {r : StateT σ (Except ε) α} {f : α → StateT σ (Except ε) β} {st st' : σ}
    {b : β} : (r >>= f) st = .ok (b, st') ↔
      ∃ a st1, r st = .ok (a, st1) ∧ f a st1 = .ok (b, st') := by
  change (r st >>= fun p => f p.1 p.2) = _ ↔ _
  cases h : r st with
  | error e => exact ⟨nofun, nofun⟩
  | ok p =>
      refine ⟨fun hf => ⟨p.1, p.2, rfl, hf⟩, fun ⟨a, st1, heq, hf⟩ => ?_⟩
      cases heq
      exact hf

/-- A reader has one result, so its specification can be read backwards. -/
theorem Reads.eq {r : StateT σ (Except ε) α} {bs rest : List γ} {a a' : α} {st st' : σ}
    (hr : Reads R r bs a) (hst : R st (bs ++ rest)) (h : r st = .ok (a', st')) :
    a' = a ∧ R st' rest := by
  obtain ⟨st1, h1, hR⟩ := hr st rest hst
  rw [h1] at h
  cases h
  exact ⟨rfl, hR⟩

/-! ## Repetition -/

/-- Run a reader `n` times. -/
def readMany (r : StateT σ (Except ε) α) : Nat → StateT σ (Except ε) (List α)
  | 0 => Pure.pure []
  | n + 1 => do
      let a ← r
      let as ← readMany r n
      Pure.pure (a :: as)

theorem Reads.many {r : StateT σ (Except ε) α} {enc : β → List γ} {dec : β → α} :
    ∀ {xs : List β}, (∀ x ∈ xs, Reads R r (enc x) (dec x)) →
      Reads R (readMany r xs.length) (xs.flatMap enc) (xs.map dec)
  | [], _ => .pure []
  | x :: xs, h => by
      rw [List.flatMap_cons, List.map_cons, List.length_cons, readMany]
      refine .bind (h x List.mem_cons_self) ?_
      have hrest := Reads.many fun y hy => h y (List.mem_cons_of_mem _ hy)
      exact List.append_nil (xs.flatMap enc) ▸ hrest.bind (.pure (dec x :: xs.map dec))

/-- As many results as rounds. -/
theorem length_readMany {r : StateT σ (Except ε) α} : ∀ {n : Nat} {st st' : σ} {as : List α},
    readMany r n st = .ok (as, st') → as.length = n
  | 0, _, _, _, h => by cases h; rfl
  | n + 1, st, st', as, h => by
      obtain ⟨a, st1, -, h⟩ := bind_ok.mp h
      obtain ⟨as, st2, has, h⟩ := bind_ok.mp h
      cases h
      rw [List.length_cons, length_readMany has]

end Reads

end Codec

end Basis
