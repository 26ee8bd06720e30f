import Saurus.Read.Forms

/-!
# What is taken of a text

`read` with the stream that it leaves. The tokens it has taken are those of a
part of the text, but for a word that the text ends in (`Takes.text`), the
calls of `read_list` and `read_sexp` have the room that they need
(`readFrom_room`), and one expression is read whatever is behind it
(`readFrom_forms`).
-/

namespace Saurus

variable {tonumber : Atom → Option (BitVec 64)} {ts us : List Token}

/-- `read`, with the stream that it leaves. -/
def readFrom (tonumber : Atom → Option (BitVec 64)) (s : Stream) :
    Except String (Option Sexp × Stream) := do
  let (tok, s') ← nextToken tonumber s
  match tok with
  | none => .ok (none, s')
  | some tok => do
      let (sexp, _, s'') ← readSexp tonumber (3 * s.text.length + 3) 0 s' tok
      .ok (sexp, s'')

theorem readFrom_none {s s' : Stream} (hnext : nextToken tonumber s = .ok (none, s')) :
    readFrom tonumber s = .ok (none, s') := by
  rw [readFrom, hnext]
  rfl

theorem readFrom_error {s : Stream} {msg : String} (hnext : nextToken tonumber s = .error msg) :
    readFrom tonumber s = .error msg := by
  rw [readFrom, hnext]
  rfl

theorem readFrom_some {s s1 : Stream} {tok : Tok}
    (hnext : nextToken tonumber s = .ok (some tok, s1)) :
    readFrom tonumber s = (readSexp tonumber (3 * s.text.length + 3) 0 s1 tok
      >>= fun r => .ok (r.1, r.2.2)) := by
  rw [readFrom, hnext]
  rfl

theorem read_eq (s : Stream) : read tonumber s = (readFrom tonumber s).map Prod.fst := by
  cases hnext : nextToken tonumber s with
  | error msg =>
      rw [readFrom_error hnext, read, hnext]
      rfl
  | ok r =>
      obtain ⟨tok, s1⟩ := r
      cases tok with
      | none =>
          rw [readFrom_none hnext, read, hnext]
          rfl
      | some tok =>
          have hread : read tonumber s = (readSexp tonumber (3 * s.text.length + 3) 0 s1 tok
              >>= fun r => .ok r.1) := by
            rw [read, hnext]
            rfl
          rw [readFrom_some hnext, hread]
          rcases readSexp tonumber (3 * s.text.length + 3) 0 s1 tok with msg | r <;> rfl

/-! ## The text of tokens -/

theorem nextToken_length {s s' : Stream} {tok : Tok}
    (h : nextToken tonumber s = .ok (some tok, s')) : s'.text.length < s.text.length := by
  have hspec := nextToken_spec tonumber s
  rw [h] at hspec
  cases hspec with
  | @token c _ _ htext hpart =>
      cases c with
      | nil => cases hpart
      | cons ch c =>
          rw [htext, List.length_append, List.length_cons]
          omega
  | @word c _ _ _ htext hpart =>
      cases c with
      | nil => cases hpart
      | cons ch c =>
          rw [htext, List.length_append, List.length_cons]
          omega

/-- Every token takes a character. -/
theorem Takes.length {s s' : Stream} (h : Takes tonumber s ts s') :
    s'.text.length + ts.length ≤ s.text.length := by
  induction h with
  | nil => exact Nat.le_refl _
  | cons hnext _ ih =>
      have hless := nextToken_length hnext
      rw [List.length_cons]
      omega

/-- What is taken are the tokens of a part of the text, or these but for the
last one, a word of which the end of the text leaves the first character. -/
theorem Takes.text {s s' : Stream} (h : Takes tonumber s ts s') :
    ∃ c, s.text = c ++ s'.text ∧ (lexPart tonumber .blank c = some (ts, .blank)
      ∨ ∃ us w, ts = us ++ [.datum (wordDatum tonumber (keptWord w s'.text))]
        ∧ lexPart tonumber .blank c = some (us, .word w) ∧ Stopped s'.text) := by
  induction h with
  | nil s => exact ⟨[], rfl, Or.inl rfl⟩
  | @cons s s1 s' tok ts hnext _ ih =>
      obtain ⟨c', htext', ih⟩ := ih
      have hspec := nextToken_spec tonumber s
      rw [hnext] at hspec
      cases hspec with
      | @token c _ _ htext hpart =>
          refine ⟨c ++ c', by rw [htext, htext', List.append_assoc], ih.imp ?_ ?_⟩
          · exact lexPart_trans hpart
          · rintro ⟨us, w, rfl, hpart', hstop⟩
            exact ⟨tok.token :: us, w, rfl, lexPart_trans hpart hpart', hstop⟩
      | @word c w _ _ htext hpart hstop htok =>
          refine ⟨c ++ c', by rw [htext, htext', List.append_assoc], ?_⟩
          cases c' with
          | nil =>
              rw [List.nil_append] at htext'
              rcases ih with hpart' | ⟨us, w', -, hpart', -⟩
              · cases hpart'
                rw [htext'] at hstop htok
                rw [List.append_nil, htok]
                exact Or.inr ⟨[], w, rfl, hpart, hstop⟩
              · cases hpart'
          | cons ch c' =>
              have hch : isOrdinary ch = false := hstop ch (by rw [htext']; rfl)
              rw [htext', List.cons_append, keptWord_cons] at htok
              rw [htok]
              refine ih.imp ?_ ?_
              · intro hpart'
                exact lexPart_trans hpart (by rw [lexPart_word c' hch, hpart']; rfl)
              · rintro ⟨us, w', rfl, hpart', hstop'⟩
                refine ⟨_ :: us, w', rfl, ?_, hstop'⟩
                exact lexPart_trans hpart (by rw [lexPart_word c' hch, hpart']; rfl)

/-- The first tokens of a text are taken, unless they are all and the last one
is a word. -/
theorem takes_of_lex {s : Stream} {e : Ending}
    (h : lex tonumber .blank s.text = (ts ++ us, e)) :
    (∃ s', Takes tonumber s ts s' ∧ lex tonumber .blank s'.text = (us, e))
    ∨ us = [] ∧ ∃ vs d, ts = vs ++ [.datum d] := by
  induction ts generalizing s with
  | nil => exact Or.inl ⟨s, .nil s, h⟩
  | cons t ts ih =>
      have hspec := nextToken_spec tonumber s
      generalize hnext : nextToken tonumber s = r at hspec
      cases hspec with
      | @token c tok s1 htext hpart =>
          rw [htext, lex_lexPart hpart, emitTokens, Prod.mk.injEq, List.singleton_append,
            List.cons_append, List.cons.injEq] at h
          obtain ⟨⟨rfl, hts⟩, he⟩ := h
          refine (ih (Prod.ext hts he)).imp ?_ ?_
          · rintro ⟨s', htakes, hlex⟩
            exact ⟨s', .cons hnext htakes, hlex⟩
          · rintro ⟨rfl, vs, d, rfl⟩
            exact ⟨rfl, tok.token :: vs, d, rfl⟩
      | @word c w tok s1 htext hpart hstop htok =>
          rw [htext, lex_lexPart hpart, emitTokens_nil, lex_stopped hstop, emitTokens,
            Prod.mk.injEq, List.singleton_append, List.cons_append, List.cons.injEq] at h
          obtain ⟨⟨rfl, hts⟩, he⟩ := h
          by_cases hrest : s1.text = []
          · rw [hrest] at hts
            obtain ⟨rfl, rfl⟩ := List.append_eq_nil_iff.mp hts.symm
            exact Or.inr ⟨rfl, [], _, rfl⟩
          · rw [keptWord, if_neg hrest] at htok
            rw [← htok]
            refine (ih (Prod.ext hts he)).imp ?_ ?_
            · rintro ⟨s', htakes, hlex⟩
              exact ⟨s', .cons hnext htakes, hlex⟩
            · rintro ⟨rfl, vs, d, rfl⟩
              exact ⟨rfl, tok.token :: vs, d, rfl⟩
      | nothing hlex =>
          rw [hlex] at h
          cases h
      | error hlex =>
          rw [hlex] at h
          cases h

/-- The next token of a text that ends in a word: this word, cut, or one before it. -/
theorem nextToken_word {s : Stream} {w : Atom}
    (h : lexPart tonumber .blank s.text = some (us, .word w)) :
    ∃ tok s1, nextToken tonumber s = .ok (some tok, s1)
      ∧ (us = [] ∧ s1.text = [] ∧ tok.token = .datum (wordDatum tonumber (w.take 1))
        ∨ ∃ vs, us = tok.token :: vs ∧ lexPart tonumber .blank s1.text = some (vs, .word w)) := by
  have hsome : (lex tonumber .blank s.text).1 ≠ [] := by
    rw [lex_of_lexPart h, lex, emitTokens]
    simp
  have hspec := nextToken_spec tonumber s
  generalize nextToken tonumber s = r at hspec
  cases hspec with
  | @token c tok s1 htext hpart =>
      rw [htext] at h
      obtain ⟨vs, hrest, rfl⟩ := lexPart_rest h hpart
      exact ⟨tok, s1, rfl, Or.inr ⟨vs, rfl, hrest⟩⟩
  | @word c w' tok s1 htext hpart hstop htok =>
      rw [htext] at h
      obtain ⟨vs, hrest, rfl⟩ := lexPart_rest h hpart
      refine ⟨tok, s1, rfl, ?_⟩
      cases hend : s1.text with
      | nil =>
          rw [hend] at hrest htok
          cases hrest
          exact Or.inl ⟨rfl, rfl, htok⟩
      | cons ch cs =>
          rw [hend] at hrest htok hstop
          rw [lexPart_word cs (hstop ch rfl)] at hrest
          obtain ⟨⟨vs', m⟩, hpart', heq⟩ := Option.map_eq_some_iff.mp hrest
          cases heq
          rw [keptWord_cons] at htok
          exact Or.inr ⟨vs', by rw [htok], hpart'⟩
  | nothing hlex => exact absurd (congrArg Prod.fst hlex) hsome
  | error hlex => exact absurd (congrArg Prod.fst hlex) hsome

/-- A word that goes on to the end of the text is cut. -/
theorem takes_cut {s : Stream} {w : Atom}
    (h : lexPart tonumber .blank s.text = some (us, .word w)) :
    ∃ s', Takes tonumber s (us ++ [.datum (wordDatum tonumber (w.take 1))]) s' ∧ s'.text = [] := by
  induction us generalizing s with
  | nil =>
      obtain ⟨tok, s1, hnext, ⟨-, hend, htok⟩ | ⟨vs, heq, -⟩⟩ := nextToken_word h
      · exact ⟨s1, htok ▸ .cons hnext (.nil s1), hend⟩
      · cases heq
  | cons t us ih =>
      obtain ⟨tok, s1, hnext, ⟨heq, -, -⟩ | ⟨vs, heq, hpart⟩⟩ := nextToken_word h
      · cases heq
      · cases heq
        obtain ⟨s', htakes, hend⟩ := ih hpart
        exact ⟨s', .cons hnext htakes, hend⟩

/-! ## One expression -/

theorem readFrom_inv {s s' : Stream} {x : Sexp} (h : readFrom tonumber s = .ok (some x, s')) :
    ∃ ts, Takes tonumber s ts s' ∧ Forms AnyCloser ts [x.datum] := by
  cases hnext : nextToken tonumber s with
  | error msg =>
      rw [readFrom_error hnext] at h
      cases h
  | ok r =>
      obtain ⟨tok, s1⟩ := r
      cases tok with
      | none =>
          rw [readFrom_none hnext] at h
          cases h
      | some tok =>
          rw [readFrom_some hnext] at h
          obtain ⟨⟨y, n, s2⟩, hsexp, h⟩ := except_bind h
          cases h
          obtain ⟨us, htakes, hforms⟩ := ((read_sound _).2 _ _ _ _ _ _ hsexp).2 x rfl
          exact ⟨tok.token :: us, .cons hnext htakes, hforms⟩

/-- One expression is read, whatever is behind it. -/
theorem readFrom_forms {s s' : Stream} {d : Datum} (htakes : Takes tonumber s ts s')
    (h : Forms AnyCloser ts [d]) : ∃ x, readFrom tonumber s = .ok (some x, s') ∧ x.datum = d := by
  have hlen := htakes.length
  cases htakes with
  | nil => cases h
  | @cons _ s1 _ tok us hnext htakes =>
      obtain ⟨x, hsexp, hx⟩ := h.one_read (3 * s.text.length + 3) 0 s1 tok us s' (by omega) rfl
        htakes
      exact ⟨x, by rw [readFrom_some hnext, hsexp]; rfl, hx⟩

/-! ## Room for the calls -/

/-- What the functions of the model say without room. -/
def noRoom : String := "stack overflow"

theorem bind_ne_error {α β : Type} {x : Except String α} {f : α → Except String β} {msg : String}
    (hx : x ≠ .error msg) (hf : ∀ a, x = .ok a → f a ≠ .error msg) : x >>= f ≠ .error msg := by
  cases x with
  | error m =>
      intro h
      cases h
      exact hx rfl
  | ok a => exact hf a rfl

theorem ok_ne_noRoom {α : Type} {a : α} : (.ok a : Except String α) ≠ .error noRoom := by
  intro h
  cases h

theorem ne_noRoom {msg : String} {c : Char} (h : msg.toList.head? = some c) (hc : c ≠ 's') :
    msg ≠ noRoom := by
  rintro rfl
  cases h
  exact hc rfl

theorem readError_ne_noRoom {α : Type} {msg : String} {c : Char} {s : Stream}
    (h : msg.toList.head? = some c) (hc : c ≠ 's') :
    (readError msg s : Except String α) ≠ .error noRoom :=
  fun hm => ne_noRoom (readError_head h hm) hc rfl

theorem readStringEsc_ne_noRoom (s : Stream) (b : Byte) : readStringEsc s b ≠ .error noRoom := by
  unfold readStringEsc
  split
  · exact readError_ne_noRoom (c := 'U') rfl (by decide)
  · split
    · exact ok_ne_noRoom
    · split_ifs
      · split
        · exact readError_ne_noRoom (c := 'U') rfl (by decide)
        · exact ok_ne_noRoom
      · refine readError_ne_noRoom (c := 'I') ?_ (by decide)
        exact head?_append_left (head?_append_left rfl _) _

theorem readString_ne_noRoom (s : Stream) (b : Byte) (str : Atom) :
    readStringFrom s b str ≠ .error noRoom := by
  fun_induction readStringFrom s b str with
  | case1 => exact readError_ne_noRoom (c := 'U') rfl (by decide)
  | case2 s b str s1 msg hesc =>
      intro h
      cases h
      exact readStringEsc_ne_noRoom s1 b hesc
  | case3 _ _ _ _ _ _ _ _ _ ih => exact ih
  | case4 _ _ _ _ _ _ _ _ ih => exact ih
  | case5 => exact ok_ne_noRoom

theorem nextToken_ne_noRoom (s : Stream) : nextToken tonumber s ≠ .error noRoom := by
  fun_induction nextToken tonumber s with
  | case1 | case4 | case5 => exact ok_ne_noRoom
  | case2 _ _ _ ih => exact ih
  | case3 s s1 =>
      exact bind_ne_error (readString_ne_noRoom s1 _ _) fun _ _ => ok_ne_noRoom

/-- The room that `read_list` needs. -/
def ListRoom (tonumber : Atom → Option (BitVec 64)) (fuel : Nat) : Prop :=
  ∀ n (s : Stream) tok data, 3 * s.text.length + 2 ≤ fuel →
    readList tonumber fuel n s tok data ≠ .error noRoom

/-- The room that `read_sexp` needs. -/
def SexpRoom (tonumber : Atom → Option (BitVec 64)) (fuel : Nat) : Prop :=
  ∀ n (s : Stream) tok, 3 * s.text.length + 1 ≤ fuel →
    readSexp tonumber fuel n s tok ≠ .error noRoom

theorem list_room {fuel : Nat} (ih : ∀ f < fuel, ListRoom tonumber f ∧ SexpRoom tonumber f) :
    ListRoom tonumber fuel := by
  intro n s tok data hfuel
  obtain ⟨fuel, rfl⟩ : ∃ f, fuel = f + 1 := ⟨fuel - 1, by omega⟩
  cases tok with
  | none =>
      rw [readList]
      exact ok_ne_noRoom
  | some tok =>
      by_cases hclose : ∃ c, tok = .char c ∧ closes c = true
      · obtain ⟨c, rfl, hc⟩ := hclose
        rw [readList_closer hc]
        exact ok_ne_noRoom
      · rw [readList_sexp data fun c hc => eq_false_of_ne_true fun hcloses =>
          hclose ⟨c, hc, hcloses⟩]
        refine bind_ne_error ((ih fuel (Nat.lt_succ_self _)).2 n s tok (by omega)) ?_
        rintro ⟨x, n1, s1⟩ hsexp
        cases x with
        | none => exact ok_ne_noRoom
        | some x =>
            obtain ⟨us, htakes, -⟩ := ((read_sound fuel).2 _ _ _ _ _ _ hsexp).2 x rfl
            refine bind_ne_error (nextToken_ne_noRoom s1) ?_
            rintro ⟨tok', s2⟩ hnext
            cases tok' with
            | none =>
                obtain ⟨fuel, rfl⟩ : ∃ f, fuel = f + 1 := ⟨fuel - 1, by omega⟩
                dsimp only
                rw [readList]
                exact ok_ne_noRoom
            | some tok' =>
                have hless : s2.text.length < s1.text.length := nextToken_length hnext
                have hle := htakes.length
                exact (ih fuel (Nat.lt_succ_self _)).1 n1 s2 _ _ (by omega)

theorem sexp_room {fuel : Nat} (ih : ∀ f < fuel, ListRoom tonumber f ∧ SexpRoom tonumber f) :
    SexpRoom tonumber fuel := by
  intro n s tok hfuel
  obtain ⟨fuel, rfl⟩ : ∃ f, fuel = f + 1 := ⟨fuel - 1, by omega⟩
  cases tok with
  | node e =>
      rw [readSexp]
      exact ok_ne_noRoom
  | char ch =>
      cases hnext : nextToken tonumber s with
      | error msg =>
          have hrun : readSexp tonumber (fuel + 1) n s (.char ch) = .error msg := by
            rw [readSexp, hnext]
            rfl
          rw [hrun]
          intro h
          cases h
          exact nextToken_ne_noRoom s hnext
      | ok r =>
          obtain ⟨tok, s1⟩ := r
          cases tok with
          | none =>
              have hrun : readSexp tonumber (fuel + 1) n s (.char ch) = .ok (none, n, s1) := by
                rw [readSexp, hnext]
                rfl
              rw [hrun]
              exact ok_ne_noRoom
          | some tok =>
              have hless := nextToken_length hnext
              obtain ⟨fuel, rfl⟩ : ∃ f, fuel = f + 2 := ⟨fuel - 2, by omega⟩
              rcases readSexp_char (fuel + 2) n ch hnext with
                ⟨name, -, hrun⟩ | ⟨head, syms, -, -, hrun⟩ | ⟨-, -, hrun⟩
              · rw [hrun, readPrefixed]
                refine bind_ne_error ((ih (fuel + 1) (by omega)).2 n s1 tok (by omega)) ?_
                rintro ⟨x, n1, s2⟩ -
                cases x <;> exact ok_ne_noRoom
              · rw [hrun, readBracket]
                refine bind_ne_error ((ih (fuel + 1) (by omega)).1 _ s1 _ _ (by omega)) ?_
                rintro ⟨data, n1, s2⟩ -
                dsimp only
                split_ifs
                · exact readError_ne_noRoom (c := 'S') rfl (by decide)
                · exact ok_ne_noRoom
              · rw [hrun]
                exact fun h => ne_noRoom (c := 'B') rfl (by decide) (Except.error.inj h)

/-- The calls have room where it grows with the text. -/
theorem read_room (fuel : Nat) : ListRoom tonumber fuel ∧ SexpRoom tonumber fuel := by
  induction fuel using Nat.strongRecOn with
  | ind fuel ih => exact ⟨list_room ih, sexp_room ih⟩

/-- `read` never lacks room. -/
theorem readFrom_room (s : Stream) : readFrom tonumber s ≠ .error noRoom := by
  cases hnext : nextToken tonumber s with
  | error msg =>
      rw [readFrom_error hnext]
      intro h
      cases h
      exact nextToken_ne_noRoom s hnext
  | ok r =>
      obtain ⟨tok, s1⟩ := r
      cases tok with
      | none =>
          rw [readFrom_none hnext]
          exact ok_ne_noRoom
      | some tok =>
          have hless := nextToken_length hnext
          rw [readFrom_some hnext]
          exact bind_ne_error ((read_room _).2 0 s1 tok (by omega)) fun _ _ => ok_ne_noRoom

end Saurus
