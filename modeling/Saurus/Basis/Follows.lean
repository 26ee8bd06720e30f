import Saurus.Basis.Machine

/-!
# Machines that follow a meaning

A meaning is given apart from the machine, as an outcome: a value, an error,
or a fault where none is given. From `s` the machine follows it
(`Machine.Follows`) if it comes to a state that goes with the value, or stops
with the error; it may also come to a state that is `full`, where it lacks
the room to go on.

Meanings are put together by `bind`, and so is what follows them; at the end
of a whole run the two outcomes are told apart by `Follows.runs`.
-/

namespace Basis.Machine

variable {σ α β : Type}

/-- From a state the machine does what `x` says, `P` relating a value to the
states that go with it. -/
inductive Follows (m : Machine σ) (full : σ → Prop) (x : Outcome α) (P : α → σ → Prop) :
    σ → Prop where
  | done {s : σ} {a : α} : x = .ok a → P a s → Follows m full x P s
  | step {s s' : σ} : m.Next s s' → Follows m full x P s' → Follows m full x P s
  | raise {s : σ} {msg : String} : ¬ m.halted s → m.step s = .raise msg → x = .raise msg →
      Follows m full x P s
  | full {s : σ} : full s → Follows m full x P s
  | unsaid {s : σ} : x = .fault → Follows m full x P s

/-- From the outcome of a step the machine does what `x` says. -/
def FollowsFrom (m : Machine σ) (full : σ → Prop) (x : Outcome α) (P : α → σ → Prop) :
    Outcome σ → Prop
  | .ok s => m.Follows full x P s
  | .raise msg => x = .raise msg ∨ x = .fault
  | .fault => x = .fault

variable {m : Machine σ} {full : σ → Prop} {x : Outcome α} {P Q : α → σ → Prop} {s : σ}

namespace Follows

theorem pure {a : α} (h : P a s) : m.Follows full (.ok a) P s := .done rfl h

/-- One meaning after another. -/
theorem bind {f : α → Outcome β} {R : β → σ → Prop} (h : m.Follows full x P s)
    (hf : ∀ a s', x = .ok a → P a s' → m.Follows full (f a) R s') :
    m.Follows full (x >>= f) R s := by
  induction h with
  | done hx hP =>
      rw [hx]
      exact hf _ _ hx hP
  | step hn _ ih => exact .step hn ih
  | raise hno hs hx => exact .raise hno hs (by rw [hx, Outcome.raise_bind])
  | full hs => exact .full hs
  | unsaid hx => exact .unsaid (by rw [hx, Outcome.fault_bind])

theorem imp (h : m.Follows full x P s) (hPQ : ∀ a s', x = .ok a → P a s' → Q a s') :
    m.Follows full x Q s := by
  induction h with
  | done hx hP => exact .done hx (hPQ _ _ hx hP)
  | step hn _ ih => exact .step hn ih
  | raise hno hs hx => exact .raise hno hs hx
  | full hs => exact .full hs
  | unsaid hx => exact .unsaid hx

/-- Where it comes to it may go on, the meaning being all said. -/
theorem tail (h : m.Follows full x P s)
    (hPQ : ∀ a s', x = .ok a → P a s' → m.Follows full (.ok a) Q s') :
    m.Follows full x Q s := by
  have hbind := h.bind hPQ
  rwa [show (x >>= fun a => Outcome.ok a) = x by cases x <;> rfl] at hbind

/-- The first step decides. -/
theorem of_step (hno : ¬ m.halted s) (h : m.FollowsFrom full x P (m.step s)) :
    m.Follows full x P s := by
  cases hs : m.step s with
  | ok s' =>
      rw [hs] at h
      exact .step ⟨hno, hs⟩ h
  | raise msg =>
      rw [hs] at h
      exact h.elim (fun hx => .raise hno hs hx) .unsaid
  | fault =>
      rw [hs] at h
      exact .unsaid h

/-- **A whole run.** Where the states that go with values are halted, the run
has the outcome that is said, unless the machine comes to a full state. -/
theorem runs (hhalt : ∀ a s', P a s' → m.halted s') (h : m.Follows full x P s)
    (hx : x ≠ .fault) :
    (∃ s', m.Steps s s' ∧ full s') ∨ ∃ o, m.Runs s o ∧ Outcome.Rel P x o := by
  induction h with
  | done hx' hP =>
      refine Or.inr ⟨_, .halt (hhalt _ _ hP), ?_⟩
      rw [hx']
      exact .ok hP
  | step hn _ ih =>
      rcases ih with ⟨s', hsteps, hfull⟩ | ⟨o, hrun, hrel⟩
      · exact Or.inl ⟨s', .head hn hsteps, hfull⟩
      · exact Or.inr ⟨o, .step hn hrun, hrel⟩
  | raise hno hs hx' =>
      refine Or.inr ⟨_, .raise hno hs, ?_⟩
      rw [hx']
      exact .raise _
  | full hs => exact Or.inl ⟨_, .refl, hs⟩
  | unsaid hx' => exact absurd hx' hx

end Follows

namespace FollowsFrom

/-- A step with a meaning of its own, and what it leads to. -/
theorem bind {f : α → Outcome β} {R : β → σ → Prop} {o : Outcome σ}
    (h : m.FollowsFrom full x P o)
    (hf : ∀ a s', x = .ok a → P a s' → m.Follows full (f a) R s') :
    m.FollowsFrom full (x >>= f) R o := by
  cases o with
  | ok s => exact Follows.bind h hf
  | raise msg =>
      rcases h with hx | hx
      · exact Or.inl (by rw [hx, Outcome.raise_bind])
      · exact Or.inr (by rw [hx, Outcome.fault_bind])
  | fault =>
      change (x >>= f) = .fault
      rw [show x = .fault from h, Outcome.fault_bind]

theorem imp {o : Outcome σ} (h : m.FollowsFrom full x P o)
    (hPQ : ∀ a s', x = .ok a → P a s' → Q a s') : m.FollowsFrom full x Q o := by
  cases o with
  | ok s => exact Follows.imp h hPQ
  | raise msg => exact h
  | fault => exact h

/-- A computation in the step whose outcomes go with those of `x`. -/
theorem of_rel {γ : Type} {R : α → γ → Prop} {y : Outcome γ} {f : γ → σ}
    (h : x ≠ .fault → Outcome.Rel R x y) (hf : ∀ a c, x = .ok a → R a c → P a (f c)) :
    m.FollowsFrom full x P (f <$> y) := by
  by_cases hx : x = .fault
  · cases y with
    | ok c => exact Follows.unsaid hx
    | raise msg => exact Or.inr hx
    | fault => exact hx
  · obtain h := h hx
    cases h with
    | ok hR => exact Follows.pure (hf _ _ rfl hR)
    | raise msg => exact Or.inl rfl
    | fault => exact absurd rfl hx

end FollowsFrom

end Basis.Machine
