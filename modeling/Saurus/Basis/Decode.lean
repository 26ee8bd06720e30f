import Saurus.Basis.Codec

/-!
# Readers that accept exactly a format

`Reads` says what a reader does with input it likes. `Decodes` says what it
does with all input: it succeeds exactly on inputs that begin with `enc a`
for a valid `a`, and when it fails it either ran out of input (`trunc`) or met
one of the errors `Bad` lists, each with the inputs that lead to it.

The rules build such a specification along the reader: `bind` for a field
followed by the rest, `many` for a repetition.
-/

namespace Basis

namespace Codec

section Decodes

variable {ε σ α β γ : Type}

/-- The reader decodes the format given by `enc` and `valid`. -/
structure Decodes (R : σ → List γ → Prop) (trunc : ε) (r : StateT σ (Except ε) α)
    (enc : α → List γ) (valid : α → Prop) (Bad : ε → List γ → Prop) : Prop where
  reads : ∀ a, valid a → Reads R r (enc a) a
  fails : ∀ e pre, Bad e pre → ∀ st rest, R st (pre ++ rest) → r st = .error e
  sound : ∀ {st st' bs a}, R st bs → r st = .ok (a, st') →
    valid a ∧ ∃ rest, bs = enc a ++ rest ∧ R st' rest
  error : ∀ {st bs e}, R st bs → r st = .error e → e = trunc ∨ ∃ pre, Bad e pre ∧ pre <+: bs

variable {R : σ → List γ → Prop} {trunc : ε}

theorem bind_error {r : StateT σ (Except ε) α} {f : α → StateT σ (Except ε) β} {st : σ}
    {e : ε} : (r >>= f) st = .error e ↔
      r st = .error e ∨ ∃ a st1, r st = .ok (a, st1) ∧ f a st1 = .error e := by
  change (r st >>= fun p => f p.1 p.2) = _ ↔ _
  cases h : r st with
  | error e' =>
      refine ⟨fun he => Or.inl ?_, ?_⟩
      · cases he
        rfl
      · rintro (he | ⟨_, _, hno, -⟩)
        · cases he
          rfl
        · cases hno
  | ok p =>
      refine ⟨fun hf => Or.inr ⟨p.1, p.2, rfl, hf⟩, ?_⟩
      rintro (he | ⟨a, st1, heq, hf⟩)
      · cases he
      · cases heq
        exact hf

/-- A result that is fixed by what was read before. -/
theorem Decodes.pure {a : α} {valid : α → Prop} (h : ∀ b, valid b ↔ b = a) :
    Decodes R trunc (Pure.pure a : StateT σ (Except ε) α) (fun _ => []) valid
      (fun _ _ => False) where
  reads := fun b hb => by
    obtain rfl := (h b).mp hb
    exact .pure b
  fails := fun _ _ hb => hb.elim
  sound := fun {st st' bs b} hR hr => by
    cases hr
    exact ⟨(h a).mpr rfl, bs, rfl, hR⟩
  error := fun _ hr => nomatch hr

/-- A reader that fails whatever the input is. -/
theorem Decodes.throw {e : ε} {valid : α → Prop} (h : ∀ b, ¬ valid b) (enc : α → List γ) :
    Decodes R trunc (fun _ => .error e : StateT σ (Except ε) α) enc valid
      (fun e' pre => e' = e ∧ pre = []) where
  reads := fun b hb => (h b hb).elim
  fails := fun e' pre hb st rest _ => by rw [hb.1]
  sound := fun _ hr => nomatch hr
  error := fun {st bs e'} _ hr => by
    cases hr
    exact Or.inr ⟨[], ⟨rfl, rfl⟩, List.nil_prefix⟩

/-- Errors of a field or of what follows it. -/
def BadSeq (enc : α → List γ) (valid : α → Prop) (B1 : ε → List γ → Prop)
    (B2 : α → ε → List γ → Prop) (e : ε) (pre : List γ) : Prop :=
  B1 e pre ∨ ∃ a tail, valid a ∧ B2 a e tail ∧ pre = enc a ++ tail

/-- A field, which the result `b` has as `proj b`, and the rest. -/
theorem Decodes.bind {r : StateT σ (Except ε) α} {f : α → StateT σ (Except ε) β}
    {enc1 : α → List γ} {valid1 : α → Prop} {B1 : ε → List γ → Prop} {enc2 : β → List γ}
    {valid2 : β → Prop} {B2 : α → ε → List γ → Prop} (proj : β → α)
    (h1 : Decodes R trunc r enc1 valid1 B1)
    (h2 : ∀ a, valid1 a →
      Decodes R trunc (f a) enc2 (fun b => proj b = a ∧ valid2 b) (B2 a)) :
    Decodes R trunc (r >>= f) (fun b => enc1 (proj b) ++ enc2 b)
      (fun b => valid1 (proj b) ∧ valid2 b) (BadSeq enc1 valid1 B1 B2) where
  reads := fun b hb =>
    (h1.reads (proj b) hb.1).bind ((h2 (proj b) hb.1).reads b ⟨rfl, hb.2⟩)
  fails := by
    rintro e pre (hbad | ⟨a, tail, ha, hbad, rfl⟩) st rest hR
    · exact bind_error.mpr (Or.inl (h1.fails e pre hbad st rest hR))
    · rw [List.append_assoc] at hR
      obtain ⟨st1, hr, hR1⟩ := h1.reads a ha st _ hR
      exact bind_error.mpr (Or.inr ⟨a, st1, hr, (h2 a ha).fails e tail hbad st1 rest hR1⟩)
  sound := fun {st st' bs b} hR hr => by
    obtain ⟨a, st1, hra, hrb⟩ := bind_ok.mp hr
    obtain ⟨ha, rest, rfl, hR1⟩ := h1.sound hR hra
    obtain ⟨⟨rfl, hb⟩, rest', rfl, hR2⟩ := (h2 a ha).sound hR1 hrb
    exact ⟨⟨ha, hb⟩, rest', (List.append_assoc ..).symm, hR2⟩
  error := fun {st bs e} hR hr => by
    rcases bind_error.mp hr with hra | ⟨a, st1, hra, hrb⟩
    · rcases h1.error hR hra with he | ⟨pre, hbad, hpre⟩
      · exact Or.inl he
      · exact Or.inr ⟨pre, Or.inl hbad, hpre⟩
    · obtain ⟨ha, rest, rfl, hR1⟩ := h1.sound hR hra
      rcases (h2 a ha).error hR1 hrb with he | ⟨pre, hbad, hpre⟩
      · exact Or.inl he
      · exact Or.inr ⟨enc1 a ++ pre, Or.inr ⟨a, pre, ha, hbad, rfl⟩,
          (List.prefix_append_right_inj _).mpr hpre⟩

/-- The same format in other words. -/
theorem Decodes.congr {r : StateT σ (Except ε) α} {enc enc' : α → List γ}
    {valid valid' : α → Prop} {B B' : ε → List γ → Prop} (h : Decodes R trunc r enc valid B)
    (henc : ∀ a, valid' a → enc' a = enc a) (hvalid : ∀ a, valid' a ↔ valid a)
    (hB : ∀ e pre, B' e pre ↔ B e pre) : Decodes R trunc r enc' valid' B' where
  reads := fun a ha => henc a ha ▸ h.reads a ((hvalid a).mp ha)
  fails := fun e pre hb => h.fails e pre ((hB e pre).mp hb)
  sound := fun hR hr => by
    obtain ⟨ha, hrest⟩ := h.sound hR hr
    have ha' := (hvalid _).mpr ha
    exact ⟨ha', henc _ ha' ▸ hrest⟩
  error := fun hR hr => (h.error hR hr).imp_right fun ⟨pre, hb, hp⟩ => ⟨pre, (hB _ _).mpr hb, hp⟩

theorem badSeq_of_field {enc : α → List γ} {valid : α → Prop} {B2 : α → ε → List γ → Prop}
    {e : ε} {pre : List γ} : BadSeq enc valid (fun _ _ => False) B2 e pre ↔
      ∃ a tail, valid a ∧ B2 a e tail ∧ pre = enc a ++ tail := or_iff_right not_false

theorem badSeq_of_rest {enc : α → List γ} {valid : α → Prop} {B1 : ε → List γ → Prop}
    {e : ε} {pre : List γ} :
    BadSeq enc valid B1 (fun _ _ _ => False) e pre ↔ B1 e pre :=
  or_iff_left fun ⟨_, _, _, h, _⟩ => h

/-- Fields and a rest that never go wrong but for want of input. -/
@[simp] theorem badSeq_false {enc : α → List γ} {valid : α → Prop} {e : ε} {pre : List γ} :
    BadSeq enc valid (fun _ _ => False) (fun _ _ _ => False) e pre ↔ False := by
  rw [badSeq_of_field]
  exact ⟨fun ⟨_, _, _, h, _⟩ => h, False.elim⟩

/-- A field and a rest that only ever lack input. -/
theorem Decodes.field {r : StateT σ (Except ε) α} {f : α → StateT σ (Except ε) β}
    {enc1 : α → List γ} {valid1 : α → Prop} {enc2 : β → List γ} {valid valid2 : β → Prop}
    (proj : β → α) (h1 : Decodes R trunc r enc1 valid1 fun _ _ => False)
    (hvalid : ∀ b, valid b ↔ valid1 (proj b) ∧ valid2 b)
    (h2 : ∀ a, valid1 a →
      Decodes R trunc (f a) enc2 (fun b => proj b = a ∧ valid2 b) fun _ _ => False) :
    Decodes R trunc (r >>= f) (fun b => enc1 (proj b) ++ enc2 b) valid fun _ _ => False :=
  (h1.bind proj h2).congr (fun _ _ => rfl) hvalid fun _ _ => badSeq_false.symm

/-- A result that stands for what was read. -/
theorem Decodes.map {r : StateT σ (Except ε) α} {enc : α → List γ} {valid : α → Prop}
    {B : ε → List γ → Prop} (h : Decodes R trunc r enc valid B) {f : α → β} {back : β → α}
    {valid' : β → Prop} (hvalid : ∀ a, valid a → valid' (f a) ∧ back (f a) = a)
    (hback : ∀ b, valid' b → valid (back b) ∧ f (back b) = b) :
    Decodes R trunc (f <$> r) (fun b => enc (back b)) valid' B where
  reads := fun b hb => .of_eq ((h.reads (back b) (hback b hb).1).map f) rfl (hback b hb).2
  fails := fun e pre hbad st rest hR => by
    change (r st >>= fun p => Except.ok (f p.1, p.2)) = _
    rw [h.fails e pre hbad st rest hR]
    rfl
  sound := fun {st st' bs b} hR hr => by
    change (r st >>= fun p => Except.ok (f p.1, p.2)) = _ at hr
    cases hra : r st with
    | error e =>
        rw [hra] at hr
        cases hr
    | ok p =>
        rw [hra] at hr
        cases hr
        obtain ⟨ha, rest, hbs, hR1⟩ := h.sound hR hra
        obtain ⟨hb, heq⟩ := hvalid _ ha
        exact ⟨hb, rest, heq.symm ▸ hbs, hR1⟩
  error := fun {st bs e} hR hr => by
    change (r st >>= fun p => Except.ok (f p.1, p.2)) = _ at hr
    cases hra : r st with
    | error e' =>
        rw [hra] at hr
        cases hr
        exact h.error hR hra
    | ok p =>
        rw [hra] at hr
        cases hr

/-- The last field of a record. -/
theorem Decodes.last {r : StateT σ (Except ε) α} {enc : α → List γ} {valid : α → Prop}
    {B : ε → List γ → Prop} {mk : α → β} {valid' : β → Prop} (proj : β → α)
    (h : Decodes R trunc r enc valid B) (hvalid : ∀ a, valid a → valid' (mk a) ∧ proj (mk a) = a)
    (hproj : ∀ b, valid' b → valid (proj b) ∧ mk (proj b) = b) :
    Decodes R trunc (r >>= fun a => Pure.pure (mk a)) (fun b => enc (proj b)) valid' B :=
  h.map hvalid hproj

/-- Errors of one of `n` items. -/
def BadMany (enc : α → List γ) (valid : α → Prop) (B : ε → List γ → Prop) (n : Nat) (e : ε)
    (pre : List γ) : Prop :=
  ∃ (xs : List α) (tail : List γ), xs.length < n ∧ (∀ x ∈ xs, valid x) ∧ B e tail
    ∧ pre = xs.flatMap enc ++ tail

/-- `n` items in a row. -/
theorem Decodes.many {r : StateT σ (Except ε) α} {enc : α → List γ} {valid : α → Prop}
    {B : ε → List γ → Prop} (h : Decodes R trunc r enc valid B) : ∀ n : Nat,
    Decodes R trunc (readMany r n) (fun xs => xs.flatMap enc)
      (fun xs => xs.length = n ∧ ∀ x ∈ xs, valid x) (BadMany enc valid B n)
  | 0 => by
      have hnil : ∀ xs : List α, (xs.length = 0 ∧ ∀ x ∈ xs, valid x) ↔ xs = [] := fun xs =>
        ⟨fun hx => List.length_eq_zero_iff.mp hx.1, by rintro rfl; simp⟩
      refine (Decodes.pure hnil).congr (fun xs hx => ?_) (fun _ => Iff.rfl) fun e pre => ?_
      · rw [(hnil xs).mp hx]
        rfl
      · exact ⟨fun ⟨_, _, hlt, _⟩ => absurd hlt (Nat.not_lt_zero _), False.elim⟩
  | n + 1 => by
      have hrest := Decodes.many h n
      constructor
      · rintro xs ⟨hlen, hv⟩
        obtain ⟨x, xs, rfl⟩ := List.exists_cons_of_length_eq_add_one hlen
        obtain ⟨hx, hxs⟩ := List.forall_mem_cons.mp hv
        rw [List.flatMap_cons, readMany]
        have htail := hrest.reads xs ⟨Nat.succ.inj hlen, hxs⟩
        exact (h.reads x hx).bind (.of_eq (htail.bind (.pure _)) (List.append_nil _) rfl)
      · rintro e pre ⟨xs, tail, hlt, hv, hbad, rfl⟩ st rest hR
        rw [readMany]
        cases xs with
        | nil => exact bind_error.mpr (Or.inl (h.fails e tail hbad st rest hR))
        | cons x xs =>
            obtain ⟨hx, hxs⟩ := List.forall_mem_cons.mp hv
            rw [List.flatMap_cons, List.append_assoc, List.append_assoc,
              ← List.append_assoc (xs.flatMap enc)] at hR
            obtain ⟨st1, hr, hR1⟩ := h.reads x hx st _ hR
            refine bind_error.mpr (Or.inr ⟨x, st1, hr, bind_error.mpr (Or.inl ?_)⟩)
            exact hrest.fails e _ ⟨xs, tail, Nat.lt_of_succ_lt_succ hlt, hxs, hbad, rfl⟩ st1 rest
              hR1
      · intro st st' bs ys hR hr
        rw [readMany] at hr
        obtain ⟨x, st1, hx, hr⟩ := bind_ok.mp hr
        obtain ⟨xs, st2, hxs, hr⟩ := bind_ok.mp hr
        cases hr
        obtain ⟨hvx, rest, rfl, hR1⟩ := h.sound hR hx
        obtain ⟨⟨hlen, hvxs⟩, rest', rfl, hR2⟩ := hrest.sound hR1 hxs
        refine ⟨⟨by rw [List.length_cons, hlen], List.forall_mem_cons.mpr ⟨hvx, hvxs⟩⟩, rest', ?_,
          hR2⟩
        rw [List.flatMap_cons, List.append_assoc]
      · intro st bs e hR hr
        rw [readMany] at hr
        rcases bind_error.mp hr with hr | ⟨x, st1, hx, hr⟩
        · rcases h.error hR hr with he | ⟨pre, hbad, hpre⟩
          · exact Or.inl he
          · exact Or.inr ⟨pre, ⟨[], pre, Nat.succ_pos n, by simp, hbad, rfl⟩, hpre⟩
        · obtain ⟨hvx, rest, rfl, hR1⟩ := h.sound hR hx
          rcases bind_error.mp hr with hr | ⟨xs, st2, -, hr⟩
          · rcases hrest.error hR1 hr with he | ⟨_, ⟨xs, tail, hlt, hv, hbad, rfl⟩, hpre⟩
            · exact Or.inl he
            · refine Or.inr ⟨enc x ++ (xs.flatMap enc ++ tail), ⟨x :: xs, tail,
                Nat.succ_lt_succ hlt, List.forall_mem_cons.mpr ⟨hvx, hv⟩, hbad, ?_⟩,
                (List.prefix_append_right_inj _).mpr hpre⟩
              rw [List.flatMap_cons, List.append_assoc]
          · cases hr

end Decodes

end Codec

end Basis
