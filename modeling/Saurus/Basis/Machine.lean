import Mathlib.Logic.Relation
import Saurus.Basis.Outcome

/-!
# Deterministic machines

A machine takes steps until it halts; a step may also raise or fault.
`Runs` is the big-step reading of a machine, what a run ends with, and
`lockstep` the simulation rule for two machines that take every step
together.
-/

namespace Basis

universe u v

namespace Outcome

/-- Outcomes of the same kind, with related values. -/
inductive Rel {α : Type u} {β : Type v} (R : α → β → Prop) : Outcome α → Outcome β → Prop where
  | ok {a : α} {b : β} : R a b → Rel R (.ok a) (.ok b)
  | raise (msg : String) : Rel R (.raise msg) (.raise msg)
  | fault : Rel R .fault .fault

variable {α : Type u} {β : Type v} {R : α → β → Prop}

theorem Rel.symm {x : Outcome α} {y : Outcome β} (h : Rel R x y) :
    Rel (fun b a => R a b) y x := by
  cases h with
  | ok h => exact .ok h
  | raise m => exact .raise m
  | fault => exact .fault

/-- Related outcomes go on to related outcomes. -/
theorem Rel.bind {α' : Type u} {β' : Type v} {S : α' → β' → Prop} {x : Outcome α}
    {y : Outcome β} {f : α → Outcome α'} {g : β → Outcome β'} (h : Rel R x y)
    (hfg : ∀ a b, R a b → Rel S (f a) (g b)) : Rel S (x >>= f) (y >>= g) := by
  cases h with
  | ok h => exact hfg _ _ h
  | raise m => exact .raise m
  | fault => exact .fault

/-- What is related may be related otherwise, knowing where it comes from. -/
theorem Rel.imp {S : α → β → Prop} {x : Outcome α} {y : Outcome β} (h : Rel R x y)
    (hRS : ∀ a b, x = .ok a → y = .ok b → R a b → S a b) : Rel S x y := by
  cases h with
  | ok h => exact .ok (hRS _ _ (.refl _) (.refl _) h)
  | raise m => exact .raise m
  | fault => exact .fault

theorem Rel.rfl {x : Outcome α} : Rel Eq x x := by
  cases x with
  | ok a => exact .ok (.refl a)
  | raise m => exact .raise m
  | fault => exact .fault

end Outcome

/-- A step function and the states in which no step is taken. -/
structure Machine (σ : Type u) where
  step : σ → Outcome σ
  halted : σ → Prop

namespace Machine

variable {σ : Type u} {τ : Type v}

/-- One completed step. -/
def Next (m : Machine σ) (s s' : σ) : Prop := ¬ m.halted s ∧ m.step s = .ok s'

/-- Some number of completed steps. -/
abbrev Steps (m : Machine σ) : σ → σ → Prop := Relation.ReflTransGen m.Next

/-- All states that are come to have the property. -/
inductive Along (m : Machine σ) (P : σ → Prop) : σ → Prop where
  | last {s : σ} : P s → m.halted s → Along m P s
  | next {s s' : σ} : P s → m.Next s s' → Along m P s' → Along m P s

/-- What a run from a state ends with. A run that never ends has no outcome. -/
inductive Runs (m : Machine σ) : σ → Outcome σ → Prop where
  | halt {s : σ} : m.halted s → Runs m s (.ok s)
  | step {s s' : σ} {o : Outcome σ} : m.Next s s' → Runs m s' o → Runs m s o
  | raise {s : σ} {msg : String} : ¬ m.halted s → m.step s = .raise msg → Runs m s (.raise msg)
  | fault {s : σ} : ¬ m.halted s → m.step s = .fault → Runs m s .fault

theorem Next.unique {m : Machine σ} {s a b : σ} (ha : m.Next s a) (hb : m.Next s b) : a = b := by
  obtain ⟨-, ha⟩ := ha
  obtain ⟨-, hb⟩ := hb
  rw [ha] at hb
  cases hb
  rfl

theorem Along.steps {m : Machine σ} {P : σ → Prop} {s s' : σ} (h : m.Along P s)
    (hsteps : m.Steps s s') : P s' := by
  induction h with
  | last hP hh =>
      rcases Relation.ReflTransGen.cases_head hsteps with rfl | ⟨_, hnext, -⟩
      · exact hP
      · exact absurd hh hnext.1
  | next hP hn _ ih =>
      rcases Relation.ReflTransGen.cases_head hsteps with rfl | ⟨_, hnext, hrest⟩
      · exact hP
      · exact ih (Next.unique hnext hn ▸ hrest)

/-- A run ends one way only. -/
theorem Runs.unique {m : Machine σ} {s : σ} {o o' : Outcome σ} (h : m.Runs s o)
    (h' : m.Runs s o') : o = o' := by
  induction h with
  | halt hh =>
      cases h' with
      | halt => rfl
      | step hn => exact absurd hh hn.1
      | raise hno => exact absurd hh hno
      | fault hno => exact absurd hh hno
  | step hn _ ih =>
      cases h' with
      | halt hh => exact absurd hh hn.1
      | step hn' hr => exact ih (Next.unique hn hn' ▸ hr)
      | raise _ hs => exact absurd (hn.2.symm.trans hs) (by simp)
      | fault _ hs => exact absurd (hn.2.symm.trans hs) (by simp)
  | raise hno hs =>
      cases h' with
      | halt hh => exact absurd hh hno
      | step hn => exact absurd (hn.2.symm.trans hs) (by simp)
      | raise _ hs' =>
          rw [hs] at hs'
          cases hs'
          rfl
      | fault _ hs' => exact absurd (hs.symm.trans hs') (by simp)
  | fault hno hs =>
      cases h' with
      | halt hh => exact absurd hh hno
      | step hn => exact absurd (hn.2.symm.trans hs) (by simp)
      | raise _ hs' => exact absurd (hs.symm.trans hs') (by simp)
      | fault => rfl

/-- A run that completes goes through steps. -/
theorem Runs.steps {m : Machine σ} {s : σ} {o : Outcome σ} (h : m.Runs s o) {s' : σ}
    (ho : o = .ok s') : m.Steps s s' := by
  induction h with
  | halt =>
      cases ho
      exact .refl
  | step hn _ ih => exact .head hn (ih ho)
  | raise => cases ho
  | fault => cases ho

/-- A run that completes has halted. -/
theorem Runs.halted {m : Machine σ} {s : σ} {o : Outcome σ} (h : m.Runs s o) {s' : σ}
    (ho : o = .ok s') : m.halted s' := by
  induction h with
  | halt hh =>
      cases ho
      exact hh
  | step _ _ ih => exact ih ho
  | raise => cases ho
  | fault => cases ho

/-- Two machines that halt together and step together end alike. -/
theorem lockstep {m : Machine σ} {n : Machine τ} {R : σ → τ → Prop}
    (hhalt : ∀ s t, R s t → (m.halted s ↔ n.halted t))
    (hstep : ∀ s t, R s t → ¬ m.halted s → Outcome.Rel R (m.step s) (n.step t))
    {s : σ} {o : Outcome σ} (h : m.Runs s o) :
    ∀ {t : τ}, R s t → ∃ o', n.Runs t o' ∧ Outcome.Rel R o o' := by
  induction h with
  | @halt s hh =>
      intro t hst
      exact ⟨.ok t, .halt ((hhalt s t hst).mp hh), .ok hst⟩
  | @step s s' o hn _ ih =>
      intro t hst
      have hrel := hstep s t hst hn.1
      rw [hn.2] at hrel
      obtain ⟨t', ht, hst'⟩ : ∃ t', n.step t = .ok t' ∧ R s' t' := by
        cases hm : n.step t with
        | ok t' =>
            rw [hm] at hrel
            cases hrel with
            | ok h => exact ⟨t', .refl _, h⟩
        | raise msg => rw [hm] at hrel; cases hrel
        | fault => rw [hm] at hrel; cases hrel
      obtain ⟨o', hr, ho⟩ := ih hst'
      exact ⟨o', .step ⟨fun hh => hn.1 ((hhalt s t hst).mpr hh), ht⟩ hr, ho⟩
  | @raise s msg hno hs =>
      intro t hst
      have hrel := hstep s t hst hno
      have hno' : ¬ n.halted t := fun hh => hno ((hhalt s t hst).mpr hh)
      rw [hs] at hrel
      cases hm : n.step t <;> rw [hm] at hrel <;> cases hrel
      exact ⟨_, .raise hno' hm, .raise _⟩
  | @fault s hno hs =>
      intro t hst
      have hrel := hstep s t hst hno
      have hno' : ¬ n.halted t := fun hh => hno ((hhalt s t hst).mpr hh)
      rw [hs] at hrel
      cases hm : n.step t <;> rw [hm] at hrel <;> cases hrel
      exact ⟨_, .fault hno' hm, .fault⟩

/-- What is reached by running on from the outcome of a first part. -/
def RunsFrom (m : Machine σ) (x o : Outcome σ) : Prop :=
  match x with
  | .ok s => m.Runs s o
  | .raise msg => o = .raise msg
  | .fault => o = .fault

theorem RunsFrom.unique {m : Machine σ} {x o o' : Outcome σ} (h : m.RunsFrom x o)
    (h' : m.RunsFrom x o') : o = o' := by
  cases x with
  | ok s => exact Runs.unique h h'
  | raise msg => exact Eq.trans h (Eq.symm h')
  | fault => exact Eq.trans h (Eq.symm h')

theorem lockstep_from {m : Machine σ} {n : Machine τ} {R : σ → τ → Prop}
    (hhalt : ∀ s t, R s t → (m.halted s ↔ n.halted t))
    (hstep : ∀ s t, R s t → ¬ m.halted s → Outcome.Rel R (m.step s) (n.step t))
    {x o : Outcome σ} {y : Outcome τ} (hxy : Outcome.Rel R x y) (h : m.RunsFrom x o) :
    ∃ o', n.RunsFrom y o' ∧ Outcome.Rel R o o' := by
  cases hxy with
  | ok hst => exact lockstep hhalt hstep h hst
  | raise msg => exact ⟨.raise msg, rfl, h ▸ .raise msg⟩
  | fault => exact ⟨.fault, rfl, h ▸ .fault⟩

/-- A run is one of another machine too, if the two agree on what is come to. -/
theorem Runs.along {m n : Machine σ} {P : σ → Prop} (hhalt : ∀ s, m.halted s ↔ n.halted s)
    (hstep : ∀ s, P s → n.step s = m.step s) (hP : ∀ s s', P s → m.Next s s' → P s') {s : σ}
    {o : Outcome σ} (h : m.Runs s o) (hs : P s) : n.Runs s o := by
  induction h with
  | halt hh => exact .halt ((hhalt _).mp hh)
  | step hn _ ih =>
      exact .step ⟨fun hh => hn.1 ((hhalt _).mpr hh), (hstep _ hs).trans hn.2⟩ (ih (hP _ _ hs hn))
  | raise hno hr => exact .raise (fun hh => hno ((hhalt _).mpr hh)) ((hstep _ hs).trans hr)
  | fault hno hr => exact .fault (fun hh => hno ((hhalt _).mpr hh)) ((hstep _ hs).trans hr)

/-- The machine that does `f` before each step. -/
def before (m : Machine σ) (f : σ → Outcome σ) : Machine σ := ⟨fun s => f s >>= m.step, m.halted⟩

/-- Its runs are those of the machine, if `f` changes none of the states that
are come to. -/
theorem runsFrom_before_iff {m : Machine σ} {f : σ → Outcome σ} {x o : Outcome σ}
    (hf : ∀ s, x = .ok s → ∀ s', m.Steps s s' → f s' = .ok s') :
    (m.before f).RunsFrom x o ↔ m.RunsFrom x o := by
  cases x with
  | ok s =>
      have hstep : ∀ s', m.Steps s s' → (m.before f).step s' = m.step s' := fun s' hs' => by
        change (f s' >>= m.step) = m.step s'
        rw [hf s rfl s' hs', Outcome.ok_bind]
      constructor
      · intro h
        refine Runs.along (m := m.before f) (n := m) (P := m.Steps s) (fun _ => Iff.rfl)
          (fun s' hs' => (hstep s' hs').symm) (fun s' t hs' ht => hs'.tail ?_) h .refl
        exact ⟨ht.1, (hstep s' hs').symm.trans ht.2⟩
      · intro h
        exact Runs.along (m := m) (n := m.before f) (P := m.Steps s) (fun _ => Iff.rfl) hstep
          (fun _ _ hs' ht => hs'.tail ht) h .refl
  | raise msg => exact Iff.rfl
  | fault => exact Iff.rfl

/-- A machine that halts earlier runs the first part of a run. -/
theorem Runs.split {m n : Machine σ} (hstep : n.step = m.step)
    (hhalt : ∀ s, m.halted s → n.halted s) {s : σ} {o : Outcome σ} (h : m.Runs s o) :
    ∃ x, n.Runs s x ∧ m.RunsFrom x o := by
  induction h with
  | @halt s hh => exact ⟨.ok s, .halt (hhalt s hh), .halt hh⟩
  | @step s s' o hn hr ih =>
      by_cases hh : n.halted s
      · exact ⟨.ok s, .halt hh, .step hn hr⟩
      · obtain ⟨x, hx, ho⟩ := ih
        exact ⟨x, .step ⟨hh, hstep ▸ hn.2⟩ hx, ho⟩
  | @raise s msg hno hs =>
      by_cases hh : n.halted s
      · exact ⟨.ok s, .halt hh, .raise hno hs⟩
      · exact ⟨.raise msg, .raise hh (hstep ▸ hs), rfl⟩
  | @fault s hno hs =>
      by_cases hh : n.halted s
      · exact ⟨.ok s, .halt hh, .fault hno hs⟩
      · exact ⟨.fault, .fault hh (hstep ▸ hs), rfl⟩

/-- And a run goes on from there. -/
theorem Runs.append {m n : Machine σ} (hstep : n.step = m.step)
    (hhalt : ∀ s, m.halted s → n.halted s) {s : σ} {x o : Outcome σ} (h : n.Runs s x)
    (ho : m.RunsFrom x o) : m.Runs s o := by
  induction h with
  | halt => exact ho
  | @step s s' x hn _ ih =>
      exact .step ⟨fun hh => hn.1 (hhalt s hh), hstep ▸ hn.2⟩ (ih ho)
  | @raise s msg hno hs =>
      obtain rfl : o = .raise msg := ho
      exact .raise (fun hh => hno (hhalt s hh)) (hstep ▸ hs)
  | @fault s hno hs =>
      obtain rfl : o = .fault := ho
      exact .fault (fun hh => hno (hhalt s hh)) (hstep ▸ hs)

theorem RunsFrom.halted {m : Machine σ} {x : Outcome σ} {s' : σ} (h : m.RunsFrom x (.ok s')) :
    m.halted s' := by
  cases x with
  | ok s => exact Runs.halted h rfl
  | raise msg => cases h
  | fault => cases h

theorem RunsFrom.split {m n : Machine σ} (hstep : n.step = m.step)
    (hhalt : ∀ s, m.halted s → n.halted s) {y o : Outcome σ} (h : m.RunsFrom y o) :
    ∃ x, n.RunsFrom y x ∧ m.RunsFrom x o := by
  cases y with
  | ok s => exact Runs.split hstep hhalt h
  | raise msg => exact ⟨.raise msg, rfl, h⟩
  | fault => exact ⟨.fault, rfl, h⟩

theorem RunsFrom.append {m n : Machine σ} (hstep : n.step = m.step)
    (hhalt : ∀ s, m.halted s → n.halted s) {y x o : Outcome σ} (h : n.RunsFrom y x)
    (ho : m.RunsFrom x o) : m.RunsFrom y o := by
  cases y with
  | ok s => exact Runs.append hstep hhalt h ho
  | raise msg =>
      obtain rfl : x = .raise msg := h
      exact ho
  | fault =>
      obtain rfl : x = .fault := h
      exact ho

end Machine

end Basis
