import Saurus.Read.Taken
import Saurus.Read.Whole

/-!
# What `read` accepts

`read` should return the expression that the text it has taken is, nothing
where nothing is left, and fail for every other text. It does, unless a
bracket of the expression is closed by another kind, or the text ends behind
prefixes with a special character, or behind prefixes in a word that is not
what its first character is (`read_wellFormed_iff`).
-/

namespace Saurus

variable {tonumber : Atom → Option (BitVec 64)} {closed : Byte → Byte → Prop}
  {ts us : List Token} {d : Datum}

/-! ## Prefixes -/

/-- These tokens are prefixes. -/
def Prefixes (ts : List Token) : Prop :=
  ∀ t ∈ ts, ∃ ch name, t = .char ch ∧ prefixName ch = some name

/-- An expression behind prefixes. -/
def behindPrefixes : List Token → Datum → Datum
  | .char ch :: ts, d => (prefixName ch).elim (behindPrefixes ts d) fun name =>
      .list [.symbol name, behindPrefixes ts d]
  | .datum _ :: ts, d => behindPrefixes ts d
  | [], d => d

theorem behindPrefixes_cons {ch : Byte} {name : Atom} (h : prefixName ch = some name)
    (ts : List Token) (d : Datum) :
    behindPrefixes (.char ch :: ts) d = .list [.symbol name, behindPrefixes ts d] := by
  rw [behindPrefixes, h, Option.elim_some]

theorem prefixes_nil : Prefixes [] := by
  intro t ht
  cases ht

theorem Prefixes.cons {ch : Byte} {name : Atom} (h : prefixName ch = some name)
    (hts : Prefixes ts) : Prefixes (.char ch :: ts) := by
  intro t ht
  rcases List.mem_cons.mp ht with rfl | ht
  · exact ⟨ch, name, rfl, h⟩
  · exact hts t ht

theorem Prefixes.of_cons {t : Token} (h : Prefixes (t :: ts)) :
    ∃ ch name, t = .char ch ∧ prefixName ch = some name ∧ Prefixes ts := by
  obtain ⟨ch, name, rfl, hname⟩ := h t List.mem_cons_self
  exact ⟨ch, name, rfl, hname, fun t ht => h t (List.mem_cons_of_mem _ ht)⟩

theorem Prefixes.forms (h : Prefixes ts) (d : Datum) :
    Forms closed (ts ++ [.datum d]) [behindPrefixes ts d] := by
  induction ts with
  | nil => exact .datum d .nil
  | cons t ts ih =>
      obtain ⟨ch, name, rfl, hname, hts⟩ := h.of_cons
      rw [behindPrefixes_cons hname]
      exact .prefixed hname (ih hts)

theorem Prefixes.injective (h : Prefixes ts) {d' : Datum}
    (heq : behindPrefixes ts d = behindPrefixes ts d') : d = d' := by
  induction ts with
  | nil => exact heq
  | cons t ts ih =>
      obtain ⟨ch, name, rfl, hname, hts⟩ := h.of_cons
      rw [behindPrefixes_cons hname, behindPrefixes_cons hname] at heq
      simp only [Datum.list.injEq, List.cons.injEq] at heq
      exact ih hts heq.2.1

/-- An expression that ends in a word is one behind prefixes. -/
theorem Forms.prefixes {d' : Datum} (h : Forms closed (us ++ [.datum d]) [d']) :
    Prefixes us ∧ d' = behindPrefixes us d := by
  generalize hts : us ++ [.datum d] = ts at h
  generalize hds : [d'] = ds at h
  induction h generalizing us d' with
  | nil => cases hds
  | datum d1 hrest =>
      cases hds
      cases hrest
      obtain ⟨rfl, hlast⟩ := List.append_inj' (hts.trans (List.nil_append _).symm) rfl
      cases hlast
      exact ⟨prefixes_nil, rfl⟩
  | prefixed hname hforms ih =>
      cases hds
      cases us with
      | nil => cases hts
      | cons t us =>
          obtain ⟨rfl, hrest⟩ := List.cons.inj hts
          obtain ⟨hus, rfl⟩ := ih hrest rfl
          exact ⟨hus.cons hname, (behindPrefixes_cons hname us d).symm⟩
  | bracket _ _ _ hrest =>
      cases hds
      cases hrest
      rw [← List.cons_append] at hts
      cases (List.append_inj' hts rfl).2

/-! ## Where the text ends -/

/-- `read_sexp` returns nothing where the text ends behind prefixes and a
special character. -/
theorem readSexp_none {fuel : Nat} {n n' : Int} {s s' : Stream} {tok : Tok}
    (h : readSexp tonumber fuel n s tok = .ok (none, n', s')) :
    ∃ us vs ch s1, tok.token :: vs = us ++ [.char ch] ∧ Prefixes us ∧ Takes tonumber s vs s1
      ∧ nextToken tonumber s1 = .ok (none, s') := by
  induction fuel using Nat.strongRecOn generalizing n n' s tok with
  | ind fuel ih =>
      cases tok with
      | node e =>
          cases fuel with
          | zero => cases h
          | succ fuel =>
              rw [readSexp] at h
              cases h
      | char ch =>
          rcases readSexp_inv h with ⟨hnext, -, -⟩ | ⟨f, tok, s1, hf, hnext, hread⟩
          · exact ⟨[], [], ch, s, rfl, prefixes_nil, .nil s, hnext⟩
          rcases hread with ⟨name, hname, hread⟩ | ⟨head, syms, -, -, hread⟩
          · obtain ⟨g, y, hg, hsexp, hy⟩ := readPrefixed_inv hread
            cases y with
            | some y => cases hy
            | none =>
                obtain ⟨us, vs, ch', s2, heq, hus, htakes, hend⟩ :=
                  ih g (Nat.lt_trans hg hf) hsexp
                refine ⟨.char ch :: us, tok.token :: vs, ch', s2, ?_, hus.cons hname,
                  .cons hnext htakes, hend⟩
                rw [heq]
                rfl
          · obtain ⟨_, _, _, _, _, hx⟩ := readBracket_inv hread
            cases hx

theorem Prefixes.readSexp_none (h : Prefixes us) {fuel : Nat} (n : Int) {s s1 s' : Stream}
    {tok : Tok} {ch : Byte} {vs : List Token} (hfuel : 2 * us.length < fuel)
    (hvs : tok.token :: vs = us ++ [.char ch]) (htakes : Takes tonumber s vs s1)
    (hend : nextToken tonumber s1 = .ok (none, s')) :
    readSexp tonumber fuel n s tok = .ok (none, n, s') := by
  induction us generalizing fuel s tok vs with
  | nil =>
      obtain ⟨fuel, rfl⟩ : ∃ f, fuel = f + 1 := ⟨fuel - 1, by omega⟩
      obtain ⟨htok, rfl⟩ := List.cons.inj hvs
      cases htakes
      rw [token_char htok, readSexp, hend]
      rfl
  | cons t us ih =>
      rw [List.length_cons] at hfuel
      obtain ⟨fuel, rfl⟩ : ∃ f, fuel = f + 2 := ⟨fuel - 2, by omega⟩
      obtain ⟨c, name, rfl, hname, hus⟩ := h.of_cons
      rw [List.cons_append] at hvs
      obtain ⟨htok, rfl⟩ := List.cons.inj hvs
      obtain ⟨v, vs, hvs⟩ : ∃ v vs, us ++ [.char ch] = v :: vs :=
        List.exists_cons_of_ne_nil (by simp)
      rw [hvs] at htakes
      obtain ⟨tok', s2, hnext, rfl, hrest⟩ := htakes.head
      have hrun : readSexp tonumber fuel n s2 tok' = .ok (none, n, s') :=
        ih hus (by omega) hvs.symm hrest
      rw [token_char htok]
      rcases readSexp_char (fuel + 1) n c hnext with
        ⟨name', -, hsexp⟩ | ⟨_, _, hhead, -⟩ | ⟨hnone, -⟩
      · rw [hsexp, readPrefixed, hrun]
        rfl
      · rw [bracketHead_prefixName hname] at hhead
        cases hhead
      · rw [hnone] at hname
        cases hname

/-- `read` returns nothing where nothing is left, or where the text ends behind
prefixes and a special character. -/
theorem readFrom_nothing {s s' : Stream} (h : readFrom tonumber s = .ok (none, s')) :
    nextToken tonumber s = .ok (none, s') ∨ ∃ us ch s1, Prefixes us
      ∧ Takes tonumber s (us ++ [.char ch]) s1 ∧ nextToken tonumber s1 = .ok (none, s') := by
  cases hnext : nextToken tonumber s with
  | error msg =>
      rw [readFrom_error hnext] at h
      cases h
  | ok r =>
      obtain ⟨tok, s1⟩ := r
      cases tok with
      | none =>
          rw [readFrom_none hnext] at h
          cases h
          exact Or.inl rfl
      | some tok =>
          rw [readFrom_some hnext] at h
          obtain ⟨⟨y, n, s2⟩, hsexp, h⟩ := except_bind h
          cases h
          obtain ⟨us, vs, ch, s3, hvs, hus, htakes, hend⟩ := Saurus.readSexp_none hsexp
          exact Or.inr ⟨us, ch, s3, hus, hvs ▸ .cons hnext htakes, hend⟩

theorem Prefixes.readFrom_nothing (h : Prefixes us) {s s1 s' : Stream} {ch : Byte}
    (htakes : Takes tonumber s (us ++ [.char ch]) s1)
    (hend : nextToken tonumber s1 = .ok (none, s')) : readFrom tonumber s = .ok (none, s') := by
  have hlen := htakes.length
  rw [List.length_append] at hlen
  generalize hts : us ++ [.char ch] = ts at htakes
  cases htakes with
  | nil => exact absurd hts (by simp)
  | @cons _ s2 _ tok vs hnext htakes =>
      rw [readFrom_some hnext, h.readSexp_none 0 (by omega) hts.symm htakes hend]
      rfl

/-- Nothing is left where the text has no more tokens. -/
theorem nextToken_blank {s : Stream} {e : Ending} (h : lex tonumber .blank s.text = ([], e))
    (he : e ≠ .string) : ∃ s', nextToken tonumber s = .ok (none, s') := by
  have hspec := nextToken_spec tonumber s
  generalize nextToken tonumber s = r at hspec
  cases hspec with
  | @token _ _ s1 htext hpart =>
      rw [htext, lex_lexPart hpart] at h
      cases h
  | @word _ _ _ s1 htext hpart hstop =>
      rw [htext, lex_lexPart hpart, lex_stopped hstop] at h
      cases h
  | nothing => exact ⟨_, rfl⟩
  | error hlex =>
      rw [hlex] at h
      cases h
      exact absurd rfl he

theorem nextToken_nothing {s s' : Stream} (h : nextToken tonumber s = .ok (none, s')) :
    ∃ e, lex tonumber .blank s.text = ([], e) ∧ e ≠ .string := by
  have hspec := nextToken_spec tonumber s
  rw [h] at hspec
  cases hspec with
  | nothing hlex he => exact ⟨_, hlex, he⟩

/-! ## What should be read -/

/-- Nothing is left but white space and comments. -/
def Blank (tonumber : Atom → Option (BitVec 64)) (cs : List Byte) : Prop :=
  (lex tonumber .blank cs).1 = [] ∧ (lex tonumber .blank cs).2 ≠ .string

/-- The text begins with an expression, where `closed o c` says that `o` may be
closed by `c`. -/
def Begins (closed : Byte → Byte → Prop) (tonumber : Atom → Option (BitVec 64))
    (cs : List Byte) : Prop :=
  ∃ ts rest d, (lex tonumber .blank cs).1 = ts ++ rest ∧ Forms closed ts [d]

/-- The text ends inside an expression, or a closing bracket is where an
expression or another bracket should be: something is left, and does not begin
with an expression. -/
def Malformed (tonumber : Atom → Option (BitVec 64)) (cs : List Byte) : Prop :=
  ¬ Blank tonumber cs ∧ ¬ Begins Pairs tonumber cs

/-- `read` accepts what is well formed only: it returns the expression that the
text it has taken is, or nothing where nothing is left, and fails otherwise. -/
structure ReadsWellFormed (tonumber : Atom → Option (BitVec 64)) (s : Stream) : Prop where
  accepted : ∀ x s', readFrom tonumber s = .ok (some x, s') →
    ∃ c, s.text = c ++ s'.text ∧ Complete Pairs tonumber c [x.datum]
  rejected : Malformed tonumber s.text → ∃ msg, readFrom tonumber s = .error msg ∧ msg ≠ noRoom
  nothing : ∀ s', readFrom tonumber s = .ok (none, s') → Blank tonumber s.text

/-- The expression at the beginning has a bracket that another kind closes. -/
def MixedBrackets (tonumber : Atom → Option (BitVec 64)) (cs : List Byte) : Prop :=
  ∃ ts rest d, (lex tonumber .blank cs).1 = ts ++ rest ∧ Forms AnyCloser ts [d]
    ∧ ¬ Forms Pairs ts [d]

/-- The text consists of prefixes and one more special character. -/
def OnlySpecial (tonumber : Atom → Option (BitVec 64)) (cs : List Byte) : Prop :=
  (lex tonumber .blank cs).2 ≠ .string
    ∧ ∃ us ch, Prefixes us ∧ (lex tonumber .blank cs).1 = us ++ [.char ch]

/-- The text consists of prefixes and a word that goes on to its end and is not
what its first character is. -/
def CutWord (tonumber : Atom → Option (BitVec 64)) (cs : List Byte) : Prop :=
  ∃ us w, Prefixes us ∧ lexPart tonumber .blank cs = some (us, .word w)
    ∧ wordDatum tonumber w ≠ wordDatum tonumber (w.take 1)

/-! ## What is read -/

variable {s s' : Stream}

/-- What is taken for an expression is one of the text, or its word is cut. -/
theorem Takes.expression (htakes : Takes tonumber s ts s') :
    ∃ c vs, s.text = c ++ s'.text ∧ lex tonumber .blank c = (vs, .done)
      ∧ (lex tonumber .blank s.text).1 = vs ++ (lex tonumber .blank s'.text).1
      ∧ (vs = ts ∨ ∃ us w, lexPart tonumber .blank s.text = some (us, .word w)
        ∧ vs = us ++ [.datum (wordDatum tonumber w)]
        ∧ ts = us ++ [.datum (wordDatum tonumber (w.take 1))]) := by
  obtain ⟨c, htext, hpart | ⟨us, w, rfl, hpart, hstop⟩⟩ := htakes.text
  · refine ⟨c, ts, htext, ?_, ?_, Or.inl rfl⟩
    · rw [lex_of_lexPart hpart, lex, emitTokens, List.append_nil]
    · rw [htext, lex_lexPart hpart, emitTokens]
  · refine ⟨c, us ++ [.datum (wordDatum tonumber w)], htext, ?_, ?_, ?_⟩
    · rw [lex_of_lexPart hpart, lex, emitTokens]
    · rw [htext, lex_lexPart hpart, lex_stopped hstop, emitTokens_emitTokens, emitTokens]
    · by_cases hrest : s'.text = []
      · rw [hrest, List.append_nil] at htext
        rw [keptWord, if_pos hrest]
        exact Or.inr ⟨us, w, htext ▸ hpart, rfl, rfl⟩
      · rw [keptWord, if_neg hrest]
        exact Or.inl rfl

/-- Where nothing spoils it, the expression that is read is the one of the text. -/
theorem readFrom_expression (hmixed : ¬ MixedBrackets tonumber s.text)
    (hcut : ¬ CutWord tonumber s.text) {x : Sexp}
    (h : readFrom tonumber s = .ok (some x, s')) :
    ∃ c ts, s.text = c ++ s'.text ∧ lex tonumber .blank c = (ts, .done)
      ∧ (lex tonumber .blank s.text).1 = ts ++ (lex tonumber .blank s'.text).1
      ∧ Forms Pairs ts [x.datum] := by
  obtain ⟨ts, htakes, hforms⟩ := readFrom_inv h
  obtain ⟨c, vs, htext, hlex, htokens, hvs⟩ := htakes.expression
  refine ⟨c, vs, htext, hlex, htokens, ?_⟩
  rcases hvs with rfl | ⟨us, w, hpart, rfl, rfl⟩
  · by_contra hpairs
    exact hmixed ⟨vs, _, _, htokens, hforms, hpairs⟩
  · obtain ⟨hus, hx⟩ := hforms.prefixes
    have hword : wordDatum tonumber w = wordDatum tonumber (w.take 1) := by
      by_contra hword
      exact hcut ⟨us, w, hus, hpart, hword⟩
    rw [hx, ← hword]
    exact hus.forms _

theorem readFrom_blank (hspecial : ¬ OnlySpecial tonumber s.text)
    (h : readFrom tonumber s = .ok (none, s')) : Blank tonumber s.text := by
  rcases readFrom_nothing h with hnext | ⟨us, ch, s1, hus, htakes, hend⟩
  · obtain ⟨e, hlex, he⟩ := nextToken_nothing hnext
    exact ⟨by rw [hlex], by rwa [hlex]⟩
  · obtain ⟨e, hlex, he⟩ := nextToken_nothing hend
    obtain ⟨c, htext, hpart | ⟨vs, w, hvs, -, -⟩⟩ := htakes.text
    · rw [htext] at hspecial
      refine absurd ⟨?_, us, ch, hus, ?_⟩ hspecial
      · rwa [lex_lexPart hpart, hlex]
      · rw [lex_lexPart hpart, hlex, emitTokens, List.append_nil]
    · cases (List.append_inj' hvs rfl).2

theorem readsWellFormed (hmixed : ¬ MixedBrackets tonumber s.text)
    (hspecial : ¬ OnlySpecial tonumber s.text) (hcut : ¬ CutWord tonumber s.text) :
    ReadsWellFormed tonumber s where
  accepted x s' h := by
    obtain ⟨c, ts, htext, hlex, -, hforms⟩ := readFrom_expression hmixed hcut h
    exact ⟨c, htext, by rw [hlex]; exact fun he => Ending.noConfusion he, by rwa [hlex]⟩
  rejected hbad := by
    cases hread : readFrom tonumber s with
    | error msg =>
        refine ⟨msg, rfl, ?_⟩
        rintro rfl
        exact readFrom_room s hread
    | ok r =>
        obtain ⟨x, s'⟩ := r
        cases x with
        | none => exact absurd (readFrom_blank hspecial hread) hbad.1
        | some x =>
            obtain ⟨c, ts, -, -, htokens, hforms⟩ := readFrom_expression hmixed hcut hread
            exact absurd ⟨ts, _, _, htokens, hforms⟩ hbad.2
  nothing s' h := readFrom_blank hspecial h

namespace ReadsWellFormed

/-- What was accepted is what was taken. -/
theorem forms (h : ReadsWellFormed tonumber s) {x : Sexp} {c : List Byte}
    (hread : readFrom tonumber s = .ok (some x, s')) (htext : s.text = c ++ s'.text) :
    Forms Pairs (lex tonumber .blank c).1 [x.datum] := by
  obtain ⟨c', htext', hcomplete⟩ := h.accepted x s' hread
  cases List.append_cancel_right (htext.symm.trans htext')
  exact hcomplete.2

theorem not_mixedBrackets (h : ReadsWellFormed tonumber s) : ¬ MixedBrackets tonumber s.text := by
  rintro ⟨ts, rest, d, htokens, hforms, hpairs⟩
  -- an expression that ends in a word has no brackets
  have hword : ∀ us d', ts ≠ us ++ [.datum d'] := by
    rintro us d' rfl
    obtain ⟨hus, rfl⟩ := hforms.prefixes
    exact hpairs (hus.forms d')
  rcases takes_of_lex (Prod.ext htokens rfl) with ⟨s', htakes, -⟩ | ⟨-, us, d', heq⟩
  · obtain ⟨x, hread, rfl⟩ := readFrom_forms htakes hforms
    obtain ⟨c, vs, htext, hlex, -, rfl | ⟨us, w, -, -, heq⟩⟩ := htakes.expression
    · have hgood := h.forms hread htext
      rw [hlex] at hgood
      exact hpairs hgood
    · exact hword us _ heq
  · exact hword us d' heq

theorem not_onlySpecial (h : ReadsWellFormed tonumber s) : ¬ OnlySpecial tonumber s.text := by
  rintro ⟨he, us, ch, hus, htokens⟩
  have hlex : lex tonumber .blank s.text
      = ((us ++ [.char ch]) ++ [], (lex tonumber .blank s.text).2) :=
    Prod.ext (htokens.trans (List.append_nil _).symm) rfl
  rcases takes_of_lex hlex with ⟨s1, htakes, hrest⟩ | ⟨-, vs, d, heq⟩
  · obtain ⟨s', hend⟩ := nextToken_blank hrest he
    have hblank := h.nothing s' (hus.readFrom_nothing htakes hend)
    rw [Blank, htokens] at hblank
    exact absurd hblank.1 (by simp)
  · cases (List.append_inj' heq rfl).2

theorem not_cutWord (h : ReadsWellFormed tonumber s) : ¬ CutWord tonumber s.text := by
  rintro ⟨us, w, hus, hpart, hword⟩
  obtain ⟨s', htakes, hend⟩ := takes_cut hpart
  obtain ⟨x, hread, hx⟩ := readFrom_forms htakes (hus.forms _)
  have hgood := h.forms hread (by rw [hend, List.append_nil])
  rw [lex_of_lexPart hpart, lex, emitTokens, hx] at hgood
  exact hword (hus.injective hgood.prefixes.2).symm

end ReadsWellFormed

/-- **What `read` accepts.** Of every stream `read` accepts what is well formed
only, unless brackets of different kinds close each other, or the text ends
behind prefixes with a special character or in a word that is cut. -/
theorem read_wellFormed_iff (s : Stream) :
    ReadsWellFormed tonumber s ↔ ¬ MixedBrackets tonumber s.text
      ∧ ¬ OnlySpecial tonumber s.text ∧ ¬ CutWord tonumber s.text :=
  ⟨fun h => ⟨h.not_mixedBrackets, h.not_onlySpecial, h.not_cutWord⟩,
    fun ⟨hmixed, hspecial, hcut⟩ => readsWellFormed hmixed hspecial hcut⟩

/-! ## Texts that are not well formed -/

/-- `(a]` -/
def squareClosed : List Token :=
  [.char (char '('), .datum (.symbol (atom ['a'])), .char (char ']')]

theorem squareClosed_not_pairs {ds : List Datum} : ¬ Forms Pairs squareClosed ds := by
  intro h
  generalize hts : squareClosed = ts at h
  cases h with
  | nil => cases hts
  | datum => cases hts
  | prefixed hname =>
      cases hts
      cases hname
  | @bracket o c head ts us ds es _ hpairs _ _ =>
      obtain ⟨ho, hrest⟩ := List.cons.inj hts
      cases ho
      rcases ts with _ | ⟨t, _ | ⟨t', ts⟩⟩
      · cases hrest
      · cases hrest
        rcases hpairs with ⟨-, hc⟩ | ⟨ho, -⟩ | ⟨ho, -⟩
        · cases hc
        · cases ho
        · cases ho
      · simp at hrest

theorem mixedBrackets_square : MixedBrackets noNumber (atom ['(', 'a', ']']) := by
  have hcloser : AnyCloser (char '(') (char ']') := rfl
  exact ⟨squareClosed, [], _, rfl, .paren hcloser (.datum (.symbol (atom ['a'])) .nil) .nil,
    squareClosed_not_pairs⟩

/-- `(a]` is read as `(a)`, of `'` and of `(` nothing is returned, and `ab` is
read as `a`. -/
theorem read_not_wellFormed :
    ¬ ReadsWellFormed noNumber (.create (atom ['(', 'a', ']']) [] [])
      ∧ ¬ ReadsWellFormed noNumber (.create (atom ['\'']) [] [])
      ∧ ¬ ReadsWellFormed noNumber (.create (atom ['(']) [] [])
      ∧ ¬ ReadsWellFormed noNumber (.create (atom ['a', 'b']) [] []) := by
  refine ⟨fun h => ?_, fun h => ?_, fun h => ?_, fun h => ?_⟩
  · exact h.not_mixedBrackets mixedBrackets_square
  · exact h.not_onlySpecial ⟨fun he => Ending.noConfusion he, [], char '\'', prefixes_nil, rfl⟩
  · exact h.not_onlySpecial ⟨fun he => Ending.noConfusion he, [], char '(', prefixes_nil, rfl⟩
  · refine h.not_cutWord ⟨[], atom ['a', 'b'], prefixes_nil, rfl, fun hword => ?_⟩
    cases hword

end Saurus
