import Saurus.Read.Forms

/-!
# The whole source

`start` reads a source between `(lambda (...) ` and `)`. The closing bracket
of the two is the last character of the text, and `read` ends with the first
closing bracket that closes `(lambda`. So a source that ends in a comment
hides the bracket, and behind a closing bracket of the source that closes
nothing the rest is left out (`source_read_iff`).
-/

namespace Saurus

variable {tonumber : Atom → Option (BitVec 64)}

/-! ## The text that is read -/

def lambdaWord : Atom := atom ['l', 'a', 'm', 'b', 'd', 'a']

def dotsWord : Atom := atom ['.', '.', '.']

/-- The program of these expressions. -/
def programDatum (ds : List Datum) : Datum :=
  .list (.symbol lambdaWord :: .list [.symbol dotsWord] :: ds)

/-- The words of the prefix are no numbers. -/
structure PlainWords (tonumber : Atom → Option (BitVec 64)) : Prop where
  lambda : tonumber lambdaWord = none
  dots : tonumber dotsWord = none

/-- The tokens of the prefix behind its first bracket. -/
def startTokens : List Token :=
  [.datum (.symbol lambdaWord), .char (char '('), .datum (.symbol dotsWord), .char (char ')')]

theorem lex_start (hwords : PlainWords tonumber) (cs : List Byte) :
    lex tonumber .blank (startPrefix ++ cs)
      = emitTokens (.char (char '(') :: startTokens) (lex tonumber .blank cs) := by
  have hlex : lex tonumber .blank (startPrefix ++ cs)
      = emitTokens [.char (char '('), .datum (wordDatum tonumber lambdaWord), .char (char '('),
          .datum (wordDatum tonumber dotsWord), .char (char ')')] (lex tonumber .blank cs) := rfl
  rw [hlex, wordDatum, wordDatum, hwords.lambda, hwords.dots]
  rfl

/-- The tokens of a text, and of the same text with a closing bracket behind it. -/
inductive WithCloser : List Token × Ending → List Token × Ending → Prop where
  | done (ts : List Token) : WithCloser (ts, .done) (ts ++ [.char (char ')')], .done)
  | comment (ts : List Token) : WithCloser (ts, .comment) (ts, .comment)
  | string (ts : List Token) : WithCloser (ts, .string) (ts, .string)
  | stringEnd (ts : List Token) (d : Datum) :
      WithCloser (ts, .string) (ts ++ [.datum d], .done)

theorem WithCloser.emit {r r' : List Token × Ending} (ts : List Token) (h : WithCloser r r') :
    WithCloser (emitTokens ts r) (emitTokens ts r') := by
  cases h with
  | done us =>
      rw [emitTokens, emitTokens, ← List.append_assoc]
      exact .done _
  | comment us => exact .comment _
  | string us => exact .string _
  | stringEnd us d =>
      rw [emitTokens, emitTokens, ← List.append_assoc]
      exact .stringEnd _ d

theorem lex_closer (m : Mode) (cs : List Byte) :
    WithCloser (lex tonumber m cs) (lex tonumber m (cs ++ [char ')'])) := by
  fun_induction lex tonumber m cs with
  | case1 => exact .done []
  | case2 => exact .comment []
  | case3 str => exact .done [.datum (wordDatum tonumber str)]
  | case4 b str =>
      rw [List.nil_append, lex]
      split_ifs
      · exact .string []
      · exact .string []
      · exact .stringEnd [] (stringDatum str)
  | case5 => exact .string []
  | case6 => exact .string []
  | case7 c cs ih =>
      rw [List.cons_append, lex]
      exact ih.emit _
  | case8 c cs ih =>
      rw [List.cons_append, lex]
      exact ih
  | case9 str c cs hord ih =>
      rw [List.cons_append, lex, if_pos hord]
      exact ih
  | case10 str c cs hord ih =>
      rw [List.cons_append, lex, if_neg hord]
      exact ih.emit _
  | case11 b str cs ih =>
      rw [List.cons_append, lex, if_pos rfl]
      exact ih
  | case12 b str c cs hcaret hne ih =>
      rw [List.cons_append, lex, if_neg hcaret, if_pos hne]
      exact ih
  | case13 b str c cs hcaret heq ih =>
      rw [List.cons_append, lex, if_neg hcaret, if_neg heq]
      exact ih.emit _
  | case14 b str c cs e hesc ih =>
      rw [List.cons_append, lex, hesc]
      exact ih
  | case15 b str cs hesc ih =>
      rw [List.cons_append, lex, hesc]
      exact ih
  | case16 b str c cs hesc hne =>
      rw [List.cons_append, lex, hesc]
      dsimp only
      rw [if_neg hne]
      exact .string []
  | case17 str c cs ih =>
      rw [List.cons_append, lex]
      exact ih

/-! ## What is read -/

/-- The expressions of the program, up to a closing bracket. -/
def Program (ts : List Token) (ds : List Datum) : Prop :=
  ∃ us c rest, ts = us ++ .char c :: rest ∧ closes c = true ∧ Forms AnyCloser us ds

theorem forms_start {us : List Token} {ds : List Datum} (h : Forms AnyCloser us ds) :
    Forms AnyCloser (startTokens ++ us)
      (.symbol lambdaWord :: .list [.symbol dotsWord] :: ds) := by
  have hcloser : AnyCloser (char '(') (char ')') := rfl
  exact .datum _ (.paren hcloser (.datum (.symbol dotsWord) .nil) h)

/-- Expressions that begin with the prefix. -/
theorem forms_start_inv {vs rest ts : List Token} {ds : List Datum} {c : Byte}
    (h : Forms AnyCloser vs ds) (hc : closes c = true)
    (heq : startTokens ++ ts = vs ++ .char c :: rest) :
    ∃ us ds', ts = us ++ .char c :: rest ∧ Forms AnyCloser us ds' := by
  rcases h with _ | ⟨_, h⟩ | _ | _
  · cases heq
  · rcases h with _ | _ | ⟨hname, -⟩ | @⟨o, c', head, _, us, _, es, _, _, hin, hout⟩
    · cases heq
      cases hc
    · cases heq
    · cases (List.cons.inj (List.cons.inj heq).2).1
      cases hname
    · simp only [startTokens, List.cons_append, List.append_assoc, List.cons.injEq] at heq
      obtain ⟨-, -, heq⟩ := heq
      rcases hin with _ | ⟨_, hin⟩ | _ | _
      · cases heq
      · rcases hin with _ | _ | ⟨hname, -⟩ | ⟨hhead, -⟩
        · cases heq
          exact ⟨us, es, rfl, hout⟩
        · cases heq
        · cases (List.cons.inj (List.cons.inj heq).2).1
          cases hname
        · cases (List.cons.inj (List.cons.inj heq).2).1
          cases hhead
      · cases heq
      · cases heq
  · cases heq
  · cases heq

/-- A word that the end of the text may add to the tokens. -/
def Mode.pending : Mode → Nat
  | .word _ => 1
  | _ => 0

theorem Mode.start_length (c : Byte) : (Mode.start c).1.length + (Mode.start c).2.pending ≤ 1 := by
  unfold Mode.start
  split_ifs <;> simp [Mode.pending]

variable (tonumber) in
/-- A text has no more tokens than characters. -/
theorem lex_length (m : Mode) (cs : List Byte) :
    (lex tonumber m cs).1.length ≤ cs.length + m.pending := by
  have hstart : ∀ c cs, (lex tonumber (Mode.start c).2 cs).1.length
      ≤ cs.length + (Mode.start c).2.pending → (emitTokens (Mode.start c).1
        (lex tonumber (Mode.start c).2 cs)).1.length ≤ cs.length + 1 := by
    intro c cs ih
    have := Mode.start_length c
    rw [emitTokens, List.length_append]
    omega
  fun_induction lex tonumber m cs with
  | case1 | case2 | case3 | case4 | case5 | case6 => simp [Mode.pending]
  | case7 c cs ih => exact hstart c cs ih
  | case8 c cs ih =>
      refine Nat.le_trans ih ?_
      split_ifs <;> simp [Mode.pending]
  | case9 str c cs hord ih => exact Nat.le_trans ih (Nat.le_succ _)
  | case10 str c cs hord ih => exact Nat.succ_le_succ (hstart c cs ih)
  | case13 b str c cs hcaret heq ih => exact Nat.succ_le_succ ih
  | case11 | case12 | case14 | case15 | case17 =>
      rename_i ih
      exact Nat.le_trans ih (Nat.le_succ _)
  | case16 => exact Nat.zero_le _

theorem ends_closer (cs : List Byte) : Ends (cs ++ [char ')']) := by
  intro c hc
  rw [List.getLast?_concat] at hc
  cases hc
  rfl

/-- The stream of `start` holds the tokens of the prefix and then those of the
source and the closing bracket. -/
theorem holding_start (hwords : PlainWords tonumber) {src : List Byte} {ts : List Token}
    {e : Ending} (h : lex tonumber .blank (src ++ [char ')']) = (ts, e)) :
    Holding tonumber (.create src startPrefix [char ')'])
      (.char (char '(') :: (startTokens ++ ts)) e where
  ends := ends_closer (startPrefix ++ src)
  lex := by
    rw [Stream.text_create, List.append_assoc, lex_start hwords, h]
    rfl

/-- `start` reads the bracket of the prefix, and then `read_sexp` what is
behind it. -/
theorem readSource_eq (hwords : PlainWords tonumber) {src : List Byte} {ts : List Token}
    {e : Ending} (hlex : lex tonumber .blank (src ++ [char ')']) = (ts, e)) :
    ∃ fuel s, 3 * (ts.length + 5) ≤ fuel + 1 ∧ Holding tonumber s (startTokens ++ ts) e
      ∧ readSource tonumber src
        = readSexp tonumber (fuel + 1) 0 s (.char (char '(')) >>= fun r => .ok r.1 := by
  have hs := holding_start hwords hlex
  obtain ⟨tok, s, hnext, htok, hs'⟩ := hs.next
  cases token_char htok
  refine ⟨3 * (Stream.create src startPrefix [char ')']).text.length + 2, s, ?_, hs', ?_⟩
  · have hlen := lex_length tonumber .blank
      (Stream.create src startPrefix [char ')']).text
    rw [hs.lex] at hlen
    simp only [Mode.pending, startTokens, List.length_cons, List.length_append] at hlen
    simp at hlen ⊢
    omega
  · rw [readSource, read, hnext]
    rfl

/-- What is a program is read as it. -/
theorem readSource_program (hwords : PlainWords tonumber) {src : List Byte} {ts : List Token}
    {ds : List Datum} {e : Ending} (hlex : lex tonumber .blank (src ++ [char ')']) = (ts, e))
    (h : Program ts ds) :
    ∃ x, readSource tonumber src = .ok (some x) ∧ x.datum = programDatum ds := by
  obtain ⟨us, c, rest, rfl, hc, hforms⟩ := h
  obtain ⟨fuel, s, hfuel, hs, hrun⟩ := readSource_eq hwords hlex
  have hprogram : Forms AnyCloser (.char (char '(') :: ((startTokens ++ us) ++ .char c :: []))
      [programDatum ds] := .paren hc (forms_start hforms) .nil
  have hs : Holding tonumber s ((startTokens ++ us ++ [.char c]) ++ rest) e := by simpa using hs
  obtain ⟨s', htakes⟩ := hs.takes
  obtain ⟨x, hsexp, hx⟩ := hprogram.one_read (fuel + 1) 0 s (.char (char '(')) _ s'
    (by simp [startTokens] at hfuel ⊢; omega) rfl htakes
  exact ⟨x, by rw [hrun, hsexp]; rfl, hx⟩

/-- What is read is a program. -/
theorem readSource_sound (hwords : PlainWords tonumber) {src : List Byte} {ts : List Token}
    {e : Ending} {x : Option Sexp} (hlex : lex tonumber .blank (src ++ [char ')']) = (ts, e))
    (h : readSource tonumber src = .ok x) : ∃ ds, Program ts ds := by
  obtain ⟨fuel, s, -, hs, hrun⟩ := readSource_eq hwords hlex
  obtain ⟨tok, s1, hnext, htok, hs1⟩ := hs.next
  rw [hrun] at h
  obtain ⟨⟨y, n, s2⟩, hsexp, -⟩ := except_bind h
  rcases readSexp_char fuel 0 (char '(') hnext with
    ⟨_, hname, -⟩ | ⟨_, syms, -, -, hread⟩ | ⟨-, hhead, -⟩
  · cases hname
  · rw [hread] at hsexp
    obtain ⟨f, data, -, hlist, -⟩ := readBracket_inv hsexp
    obtain ⟨-, us, vs, c, es, htakes, heq, hc, -, hforms⟩ :=
      (read_sound f).1 _ _ _ _ _ _ _ hlist (by decide)
    obtain ⟨rest, hrest⟩ := hs1.of_takes htakes
    have hvs : startTokens ++ ts = vs ++ .char c :: rest :=
      calc startTokens ++ ts = tok.token :: (us ++ rest) := by rw [htok, ← hrest]; rfl
        _ = vs ++ .char c :: rest := by
            rw [← List.cons_append, heq, List.append_assoc, List.singleton_append]
    obtain ⟨us, ds, hts, hus⟩ := forms_start_inv hforms hc hvs
    exact ⟨ds, us, c, rest, hts, hc, hus⟩
  · cases hhead

/-! ## Sources -/

variable {closed : Byte → Byte → Prop} {src : List Byte}

/-- The source is a sequence of complete expressions with white space and
comments anywhere, where `closed o c` says that `o` may be closed by `c`. -/
def Complete (closed : Byte → Byte → Prop) (tonumber : Atom → Option (BitVec 64))
    (src : List Byte) (ds : List Datum) : Prop :=
  (lex tonumber .blank src).2 ≠ .string ∧ Forms closed (lex tonumber .blank src).1 ds

/-- The whole source is compiled, or none of it. -/
def SourceRead (closed : Byte → Byte → Prop) (tonumber : Atom → Option (BitVec 64))
    (src : List Byte) : Prop :=
  (∀ ds, Complete closed tonumber src ds →
    ∃ x, readSource tonumber src = .ok (some x) ∧ x.datum = programDatum ds)
  ∧ ((∀ ds, ¬ Complete closed tonumber src ds) → ∃ msg, readSource tonumber src = .error msg)

/-- Complete expressions, and then a closing bracket that closes none. -/
def ExtraCloser (tonumber : Atom → Option (BitVec 64)) (src : List Byte) : Prop :=
  ∃ ds, Program (lex tonumber .blank src).1 ds

/-- The source ends in a comment. -/
def EndsInComment (tonumber : Atom → Option (BitVec 64)) (src : List Byte) : Prop :=
  (lex tonumber .blank src).2 = .comment

/-- Complete expressions, but for brackets that others close. -/
def Mismatched (closed : Byte → Byte → Prop) (tonumber : Atom → Option (BitVec 64))
    (src : List Byte) : Prop :=
  (∃ ds, Complete AnyCloser tonumber src ds) ∧ ∀ ds, ¬ Complete closed tonumber src ds

theorem Program.not_forms {ts : List Token} {ds ds' : List Datum} (h : Program ts ds) :
    ¬ Forms AnyCloser ts ds' := by
  intro hforms
  obtain ⟨us, c, rest, rfl, hc, hus⟩ := h
  obtain ⟨heq, -⟩ := hforms.unique (fun _ _ h => h) hus (List.append_nil _)
    (show Stops [] from nofun) (stops_closer hc rest)
  exact List.cons_ne_nil _ _ (List.append_right_eq_self.mp heq)

theorem program_concat {ts : List Token} {t : Token} {ds : List Datum} :
    Program (ts ++ [t]) ds ↔
      Program ts ds ∨ ∃ c, t = .char c ∧ closes c = true ∧ Forms AnyCloser ts ds := by
  constructor
  · rintro ⟨us, c, rest, heq, hc, hforms⟩
    rcases List.eq_nil_or_concat rest with rfl | ⟨rest, x, rfl⟩
    · obtain ⟨rfl, ht⟩ := List.append_inj' heq rfl
      exact Or.inr ⟨c, (List.cons.inj ht).1, hc, hforms⟩
    · rw [List.concat_eq_append, ← List.cons_append, ← List.append_assoc] at heq
      exact Or.inl ⟨us, c, rest, (List.append_inj' heq rfl).1, hc, hforms⟩
  · rintro (⟨us, c, rest, rfl, hc, hforms⟩ | ⟨c, rfl, hc, hforms⟩)
    · exact ⟨us, c, rest ++ [t], by rw [List.append_assoc, List.cons_append], hc, hforms⟩
    · exact ⟨ts, c, [], rfl, hc, hforms⟩

/-- With a closing bracket behind it, a source is a program if it was one
before, or if it is complete and the bracket is not hidden. -/
theorem WithCloser.program_iff {r r' : List Token × Ending} (h : WithCloser r r')
    (ds : List Datum) :
    Program r'.1 ds ↔ Program r.1 ds ∨ r.2 = .done ∧ Forms AnyCloser r.1 ds := by
  cases h with
  | done ts =>
      rw [program_concat]
      exact or_congr_right ⟨fun ⟨_, _, _, h⟩ => ⟨rfl, h⟩, fun h => ⟨_, rfl, rfl, h.2⟩⟩
  | comment ts => exact ⟨Or.inl, fun h => h.resolve_right fun h => Ending.noConfusion h.1⟩
  | string ts => exact ⟨Or.inl, fun h => h.resolve_right fun h => Ending.noConfusion h.1⟩
  | stringEnd ts d =>
      rw [program_concat]
      exact or_congr_right ⟨fun ⟨_, h, _⟩ => Token.noConfusion h, fun h => Ending.noConfusion h.1⟩

/-- A source is read as a program, up to its first extra closing bracket or,
if it has none and its ending does not hide the one of `start`, up to its end. -/
theorem readSource_ok (hwords : PlainWords tonumber) {ds : List Datum}
    (h : Program (lex tonumber .blank src).1 ds
      ∨ ¬ EndsInComment tonumber src ∧ Complete AnyCloser tonumber src ds) :
    ∃ x, readSource tonumber src = .ok (some x) ∧ x.datum = programDatum ds := by
  refine readSource_program hwords rfl (((lex_closer .blank src).program_iff ds).mpr ?_)
  refine h.imp_right fun ⟨hcomment, hending, hforms⟩ => ⟨?_, hforms⟩
  unfold EndsInComment at hcomment
  generalize (lex tonumber .blank src).2 = e at hcomment hending ⊢
  cases e with
  | done => rfl
  | comment => exact absurd rfl hcomment
  | string => exact absurd rfl hending

theorem of_readSource (hwords : PlainWords tonumber) {x : Option Sexp}
    (h : readSource tonumber src = .ok x) :
    ∃ ds, Program (lex tonumber .blank src).1 ds
      ∨ ¬ EndsInComment tonumber src ∧ Complete AnyCloser tonumber src ds := by
  obtain ⟨ds, hds⟩ := readSource_sound hwords rfl h
  refine ⟨ds, (((lex_closer .blank src).program_iff ds).mp hds).imp_right ?_⟩
  rintro ⟨hdone, hforms⟩
  exact ⟨fun hcomment => Ending.noConfusion (hdone.symm.trans hcomment),
    fun hstring => Ending.noConfusion (hdone.symm.trans hstring), hforms⟩

theorem readSource_cases (r : Except String (Option Sexp)) :
    (∃ x, r = .ok x) ∨ ∃ msg, r = .error msg := by
  cases r with
  | ok x => exact Or.inl ⟨x, rfl⟩
  | error msg => exact Or.inr ⟨msg, rfl⟩

theorem SourceRead.not_extraCloser (hwords : PlainWords tonumber)
    (hclosed : ∀ o c, closed o c → closes c = true) (h : SourceRead closed tonumber src) :
    ¬ ExtraCloser tonumber src := by
  rintro ⟨ds, hds⟩
  obtain ⟨x, hx, -⟩ := readSource_ok hwords (Or.inl hds)
  obtain ⟨msg, hmsg⟩ := h.2 fun ds' hds' => hds.not_forms (hds'.2.mono hclosed)
  cases hx.symm.trans hmsg

theorem SourceRead.not_comment (hwords : PlainWords tonumber)
    (hclosed : ∀ o c, closed o c → closes c = true) (h : SourceRead closed tonumber src)
    {ds : List Datum} (hds : Complete closed tonumber src ds) : ¬ EndsInComment tonumber src := by
  intro hcomment
  obtain ⟨x, hx, -⟩ := h.1 ds hds
  obtain ⟨ds', hprogram | ⟨hncomment, -⟩⟩ := of_readSource hwords hx
  · exact hprogram.not_forms (hds.2.mono hclosed)
  · exact hncomment hcomment

theorem SourceRead.matched (hwords : PlainWords tonumber) (h : SourceRead closed tonumber src)
    (hcomment : ¬ EndsInComment tonumber src) : ¬ Mismatched closed tonumber src := by
  rintro ⟨⟨ds, hds⟩, hnone⟩
  obtain ⟨x, hx, -⟩ := readSource_ok hwords (Or.inr ⟨hcomment, hds⟩)
  obtain ⟨msg, hmsg⟩ := h.2 hnone
  cases hx.symm.trans hmsg

/-- **The whole source.** Whichever brackets may close a bracket, the source is
read whole, or not at all, unless an expression ends that none has begun, or
it is complete and ends in a comment, or it is complete only as any closing
bracket closes any other. -/
theorem source_read_iff (hwords : PlainWords tonumber)
    (hclosed : ∀ o c, closed o c → closes c = true) :
    SourceRead closed tonumber src ↔
      ¬ ExtraCloser tonumber src
      ∧ ¬ (EndsInComment tonumber src ∧ ∃ ds, Complete closed tonumber src ds)
      ∧ ¬ (¬ EndsInComment tonumber src ∧ Mismatched closed tonumber src) := by
  constructor
  · intro h
    exact ⟨h.not_extraCloser hwords hclosed,
      fun ⟨hcomment, _, hds⟩ => h.not_comment hwords hclosed hds hcomment,
      fun ⟨hcomment, hmis⟩ => h.matched hwords hcomment hmis⟩
  · rintro ⟨hextra, hcomment, hmis⟩
    refine ⟨fun ds hds => ?_, fun hnone => ?_⟩
    · refine readSource_ok hwords (Or.inr ⟨fun h => hcomment ⟨h, ds, hds⟩, hds.1, ?_⟩)
      exact hds.2.mono hclosed
    · refine (readSource_cases (readSource tonumber src)).resolve_left ?_
      rintro ⟨x, hx⟩
      obtain ⟨ds, hprogram | ⟨hncomment, hds⟩⟩ := of_readSource hwords hx
      · exact hextra ⟨ds, hprogram⟩
      · exact hmis ⟨hncomment, ⟨ds, hds⟩, hnone⟩

/-! ## Three sources -/

/-- No word is a number. -/
def noNumber : Atom → Option (BitVec 64) := fun _ => none

theorem plainWords_noNumber : PlainWords noNumber := ⟨rfl, rfl⟩

/-- A list that a comment interrupts is read. -/
theorem source_read_list :
    SourceRead Pairs noNumber (atom ['(', 'a', ';', '\n', 'b', ')']) := by
  have hforms : Forms Pairs (lex noNumber .blank (atom ['(', 'a', ';', '\n', 'b', ')'])).1
      [.list [.symbol (atom ['a']), .symbol (atom ['b'])]] :=
    .paren (Or.inl ⟨rfl, rfl⟩) (.datum _ (.datum _ .nil)) .nil
  refine (source_read_iff plainWords_noNumber fun _ _ => Pairs.closes).mpr ⟨?_, ?_, ?_⟩
  · exact fun ⟨_, hextra⟩ => hextra.not_forms (hforms.mono fun _ _ => Pairs.closes)
  · exact fun h => Ending.noConfusion h.1
  · exact fun h => h.2.2 _ ⟨fun h => Ending.noConfusion h, hforms⟩

/-- Behind `a)` the source `a)b` is left out, and `a;` is not read for all
that it is complete. -/
theorem not_source_read :
    ¬ SourceRead Pairs noNumber (atom ['a', ')', 'b'])
      ∧ ¬ SourceRead Pairs noNumber (atom ['a', ';']) := by
  constructor
  · intro h
    refine h.not_extraCloser plainWords_noNumber (fun _ _ => Pairs.closes) ?_
    exact ⟨[.symbol (atom ['a'])], [.datum (.symbol (atom ['a']))], char ')',
      [.datum (.symbol (atom ['b']))], rfl, rfl, .datum _ .nil⟩
  · intro h
    have hds : Complete Pairs noNumber (atom ['a', ';']) [.symbol (atom ['a'])] :=
      ⟨fun h => Ending.noConfusion h, .datum _ .nil⟩
    exact h.not_comment plainWords_noNumber (fun _ _ => Pairs.closes) hds rfl

end Saurus
