import Saurus.Basis.Outcome

/-!
# Functions with fuel

A function that may need any number of nested calls is given fuel, and faults
without. `Settles` is what it comes to when there is enough, and the rules
below follow the shape of such a function: one unit is spent, and then it goes
on from what a call has settled to.

A run may also need room of which there is only so much, and give it back.
`Peaks` is a run with the most it has at a time.
-/

namespace Basis

universe u

namespace Outcome

variable {α β : Type u} {f g : Nat → Outcome α} {o : Outcome α}

/-- With enough fuel `f` comes to `o`. -/
def Settles (f : Nat → Outcome α) (o : Outcome α) : Prop := ∃ n, ∀ fuel, n ≤ fuel → f fuel = o

theorem Settles.unique {o' : Outcome α} (h : Settles f o) (h' : Settles f o') : o = o' := by
  obtain ⟨m, h⟩ := h
  obtain ⟨n, h'⟩ := h'
  rw [← h (max m n) (Nat.le_max_left ..), h' (max m n) (Nat.le_max_right ..)]

theorem settles_const (o : Outcome α) : Settles (fun _ => o) o := ⟨0, fun _ _ => rfl⟩

theorem settles_of_eq {x : Outcome α} (h : x = o) : Settles (fun _ => x) o := h ▸ settles_const o

/-- A function that spends one unit. -/
theorem Settles.spend (h : Settles g o) (hfg : ∀ fuel, f (fuel + 1) = g fuel) : Settles f o := by
  obtain ⟨n, h⟩ := h
  refine ⟨n + 1, fun fuel hfuel => ?_⟩
  obtain ⟨fuel, rfl⟩ := Nat.exists_eq_add_of_le' hfuel
  rw [← Nat.add_assoc, hfg]
  exact h _ (Nat.le_add_left ..)

theorem Settles.bind {k : Nat → α → Outcome β} {a : α} {o : Outcome β} (h : Settles f (.ok a))
    (hk : Settles (fun fuel => k fuel a) o) : Settles (fun fuel => f fuel >>= k fuel) o := by
  obtain ⟨m, h⟩ := h
  obtain ⟨n, hk⟩ := hk
  refine ⟨max m n, fun fuel hfuel => ?_⟩
  have hf := h fuel (Nat.le_trans (Nat.le_max_left ..) hfuel)
  have hkf := hk fuel (Nat.le_trans (Nat.le_max_right ..) hfuel)
  dsimp only at hkf ⊢
  rw [hf, ok_bind, hkf]

theorem Settles.bind_raise {k : Nat → α → Outcome β} {msg : String} (h : Settles f (.raise msg)) :
    Settles (fun fuel => f fuel >>= k fuel) (.raise msg) := by
  obtain ⟨n, h⟩ := h
  refine ⟨n, fun fuel hfuel => ?_⟩
  dsimp only
  rw [h fuel hfuel]
  rfl

/-- Where the first of two runs settles, the second goes on from there. -/
theorem Settles.of_bind {k : Nat → α → Outcome β} {a : α} {o : Outcome β}
    (h : Settles (fun fuel => f fuel >>= k fuel) o) (hf : Settles f (.ok a)) :
    Settles (fun fuel => k fuel a) o := by
  obtain ⟨m, h⟩ := h
  obtain ⟨n, hf⟩ := hf
  refine ⟨max m n, fun fuel hfuel => ?_⟩
  have hrun := h fuel (Nat.le_trans (Nat.le_max_left ..) hfuel)
  dsimp only at hrun
  rwa [hf fuel (Nat.le_trans (Nat.le_max_right ..) hfuel), ok_bind] at hrun

theorem Settles.of_map {g : α → β} {b : β} (hg : Function.Injective g)
    (h : Settles (fun fuel => f fuel >>= fun a => pure (g a)) (.ok b)) :
    ∃ a, Settles f (.ok a) ∧ g a = b := by
  obtain ⟨n, h⟩ := h
  have hat : ∀ fuel, n ≤ fuel → ∃ a, f fuel = .ok a ∧ g a = b := by
    intro fuel hfuel
    obtain ⟨a, ha, hb⟩ := bind_eq_ok.mp (h fuel hfuel)
    exact ⟨a, ha, Outcome.ok.inj hb⟩
  obtain ⟨a, ha, rfl⟩ := hat n (Nat.le_refl n)
  refine ⟨a, ⟨n, fun fuel hfuel => ?_⟩, rfl⟩
  obtain ⟨a', ha', heq⟩ := hat fuel hfuel
  rw [ha', hg heq]

/-! ## Peaks -/

/-- Calls of `f` go up to `peak`: it comes to a value with `Q` where that is
within the limit, and raises `msg` where it is not. -/
def Peaks (limit : Nat) (msg : String) (peak : Nat) (f : Nat → Outcome α) (Q : α → Prop) : Prop :=
  if peak ≤ limit then ∃ a, Settles f (.ok a) ∧ Q a else Settles f (.raise msg)

section Peaks

variable {limit peak : Nat} {msg : String} {Q : α → Prop}

theorem Peaks.fits (h : Peaks limit msg peak f Q) (hle : peak ≤ limit) :
    ∃ a, Settles f (.ok a) ∧ Q a := by
  rwa [Peaks, if_pos hle] at h

theorem Peaks.full (h : Peaks limit msg peak f Q) (hlt : limit < peak) :
    Settles f (.raise msg) := by
  rwa [Peaks, if_neg (Nat.not_le.mpr hlt)] at h

/-- What settles to a value within the limit. -/
theorem peaks_ok {a : α} (h : Settles f (.ok a)) (hle : peak ≤ limit) (hQ : Q a) :
    Peaks limit msg peak f Q := by
  rw [Peaks, if_pos hle]
  exact ⟨a, h, hQ⟩

theorem Peaks.spend (h : Peaks limit msg peak g Q) (hfg : ∀ fuel, f (fuel + 1) = g fuel) :
    Peaks limit msg peak f Q := by
  by_cases hle : peak ≤ limit
  · obtain ⟨a, hg, ha⟩ := h.fits hle
    exact peaks_ok (hg.spend hfg) hle ha
  · rw [Peaks, if_neg hle]
    exact (h.full (Nat.not_le.mp hle)).spend hfg

/-- Two runs in a row go as high as the higher of them. -/
theorem Peaks.bind {k : Nat → α → Outcome β} {R : β → Prop} {peak' : Nat}
    (h : Peaks limit msg peak f Q)
    (hk : ∀ a, Q a → Peaks limit msg peak' (fun fuel => k fuel a) R) :
    Peaks limit msg (max peak peak') (fun fuel => f fuel >>= k fuel) R := by
  by_cases hle : peak ≤ limit
  · obtain ⟨a, hf, ha⟩ := h.fits hle
    have hk := hk a ha
    by_cases hle' : peak' ≤ limit
    · obtain ⟨b, hb, hR⟩ := hk.fits hle'
      exact peaks_ok (hf.bind hb) (Nat.max_le.mpr ⟨hle, hle'⟩) hR
    · rw [Peaks, if_neg (by omega)]
      exact hf.bind (hk.full (Nat.not_le.mp hle'))
  · rw [Peaks, if_neg (by omega)]
    exact (h.full (Nat.not_le.mp hle)).bind_raise

/-- A last step that settles. -/
theorem Peaks.andThen {k : Nat → α → Outcome β} {R : β → Prop} (h : Peaks limit msg peak f Q)
    (hk : ∀ a, Q a → ∃ b, Settles (fun fuel => k fuel a) (.ok b) ∧ R b) :
    Peaks limit msg peak (fun fuel => f fuel >>= k fuel) R := by
  by_cases hle : peak ≤ limit
  · obtain ⟨a, hf, ha⟩ := h.fits hle
    obtain ⟨b, hb, hR⟩ := hk a ha
    exact peaks_ok (hf.bind hb) hle hR
  · rw [Peaks, if_neg hle]
    exact (h.full (Nat.not_le.mp hle)).bind_raise

/-- A first step that settles. -/
theorem Peaks.after {k : Nat → α → Outcome β} {R : β → Prop} {a : α} (hf : Settles f (.ok a))
    (hk : Peaks limit msg peak (fun fuel => k fuel a) R) :
    Peaks limit msg peak (fun fuel => f fuel >>= k fuel) R := by
  by_cases hle : peak ≤ limit
  · obtain ⟨b, hb, hR⟩ := hk.fits hle
    exact peaks_ok (hf.bind hb) hle hR
  · rw [Peaks, if_neg hle]
    exact hf.bind (hk.full (Nat.not_le.mp hle))

theorem Peaks.imp {R : α → Prop} (h : Peaks limit msg peak f Q) (hQR : ∀ a, Q a → R a) :
    Peaks limit msg peak f R := by
  by_cases hle : peak ≤ limit
  · obtain ⟨a, hf, ha⟩ := h.fits hle
    exact peaks_ok hf hle (hQR a ha)
  · rw [Peaks, if_neg hle]
    exact h.full (Nat.not_le.mp hle)

end Peaks

end Outcome

end Basis
