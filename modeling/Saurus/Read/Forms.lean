import Saurus.Read.Tokens

/-!
# Sequences of expressions

When tokens are a sequence of complete expressions, for any relation that
says which bracket closes which (`Forms`). What `read_list` and `read_sexp`
read is such a sequence when every closing bracket closes every opening one:
they read it where it is there (`forms_read`), and what they have read up to
a closing bracket was one (`read_sound`).
-/

namespace Saurus

/-- The symbol a character puts before the form behind it. -/
def prefixName (ch : Byte) : Option Atom :=
  if ch = char '\'' then some (atom ['q', 'u', 'o', 't', 'e'])
  else if ch = char ',' then some (atom ['u', 'n', 'q', 'u', 'o', 't', 'e'])
  else if ch = char '@' then some (atom ['u', 'n', 'r', 'e', 'f'])
  else none

/-- The symbols a bracket puts at the head of its list. -/
def bracketHead (ch : Byte) : Option (List Atom) :=
  if ch = char '[' then some [atom ['v', 'e', 'c', 't', 'o', 'r']]
  else if ch = char '{' then some [atom ['m', 'a', 'p']]
  else if ch = char '(' then some []
  else none

/-- The tokens are complete expressions one after the other, where
`closed o c` says that `o` may be closed by `c`. -/
inductive Forms (closed : Byte → Byte → Prop) : List Token → List Datum → Prop where
  | nil : Forms closed [] []
  | datum {ts : List Token} {ds : List Datum} (d : Datum) : Forms closed ts ds →
      Forms closed (.datum d :: ts) (d :: ds)
  | prefixed {ch : Byte} {name : Atom} {ts : List Token} {d : Datum} {ds : List Datum} :
      prefixName ch = some name → Forms closed ts (d :: ds) →
      Forms closed (.char ch :: ts) (.list [.symbol name, d] :: ds)
  | bracket {o c : Byte} {head : List Atom} {ts us : List Token} {ds es : List Datum} :
      bracketHead o = some head → closed o c → Forms closed ts ds → Forms closed us es →
      Forms closed (.char o :: (ts ++ .char c :: us)) (.list (head.map .symbol ++ ds) :: es)

/-- A bracket is closed by its own kind. -/
def Pairs (o c : Byte) : Prop :=
  o = char '(' ∧ c = char ')' ∨ o = char '[' ∧ c = char ']' ∨ o = char '{' ∧ c = char '}'

/-- A bracket is closed by any kind. -/
def AnyCloser (_ c : Byte) : Prop := closes c = true

theorem Pairs.closes {o c : Byte} (h : Pairs o c) : closes c = true := by
  rcases h with ⟨-, rfl⟩ | ⟨-, rfl⟩ | ⟨-, rfl⟩ <;> rfl

variable {closed : Byte → Byte → Prop} {ts us : List Token} {ds es : List Datum}

namespace Forms

theorem mono (hclosed : ∀ o c, closed o c → Saurus.closes c = true) (h : Forms closed ts ds) :
    Forms AnyCloser ts ds := by
  induction h with
  | nil => exact .nil
  | datum d _ ih => exact .datum d ih
  | prefixed hname _ ih => exact .prefixed hname ih
  | bracket hhead hc _ _ ih ih' => exact .bracket hhead (hclosed _ _ hc) ih ih'

/-- A list. -/
theorem paren {c : Byte} (hc : closed (char '(') c) (h : Forms closed ts ds)
    (h' : Forms closed us es) : Forms closed (.char (char '(') :: (ts ++ .char c :: us))
      (.list ds :: es) :=
  @bracket closed (char '(') c [] ts us ds es rfl hc h h'

theorem append (h : Forms closed ts ds) (h' : Forms closed us es) :
    Forms closed (ts ++ us) (ds ++ es) := by
  induction h with
  | nil => exact h'
  | datum d _ ih => exact .datum d ih
  | prefixed hname _ ih => exact .prefixed hname ih
  | bracket hhead hclosed hin _ _ ih' =>
      rw [List.cons_append, List.append_assoc]
      exact .bracket hhead hclosed hin ih'

end Forms

/-! ## What stands before a closing bracket -/

theorem closes_cases {c : Byte} (h : closes c = true) :
    c = char ')' ∨ c = char '}' ∨ c = char ']' := by
  simpa [closes, or_assoc] using h

theorem prefixName_closes {c : Byte} (h : closes c = true) : prefixName c = none := by
  rcases closes_cases h with rfl | rfl | rfl <;> rfl

theorem bracketHead_closes {c : Byte} (h : closes c = true) : bracketHead c = none := by
  rcases closes_cases h with rfl | rfl | rfl <;> rfl

theorem bracketHead_prefixName {c : Byte} {name : Atom} (h : prefixName c = some name) :
    bracketHead c = none := by
  unfold prefixName at h
  split at h
  · rename_i hc
    rw [hc]
    rfl
  · split at h
    · rename_i hc
      rw [hc]
      rfl
    · split at h
      · rename_i hc
        rw [hc]
        rfl
      · cases h

/-- Nothing is left, or a closing bracket is next. -/
def Stops (r : List Token) : Prop := ∀ t, r.head? = some t → ∃ c, t = .char c ∧ closes c = true

theorem stops_closer {c : Byte} (hc : closes c = true) (r : List Token) :
    Stops (.char c :: r) := by
  intro t ht
  cases ht
  exact ⟨c, rfl, hc⟩

/-- Behind expressions that stop, nothing begins another one. -/
theorem Forms.nil_of_stops {r r' : List Token} (h : Forms closed ts ds) (hr : Stops r)
    (heq : r = ts ++ r') : ts = [] ∧ ds = [] := by
  cases h with
  | nil => exact ⟨rfl, rfl⟩
  | datum d _ =>
      subst heq
      obtain ⟨c, hc, -⟩ := hr _ rfl
      cases hc
  | prefixed hname _ =>
      subst heq
      obtain ⟨c, hc, hcloses⟩ := hr _ rfl
      cases hc
      rw [prefixName_closes hcloses] at hname
      cases hname
  | bracket hhead _ _ _ =>
      subst heq
      obtain ⟨c, hc, hcloses⟩ := hr _ rfl
      cases hc
      rw [bracketHead_closes hcloses] at hhead
      cases hhead

/-- **Unique reading.** Where the expressions end and what they are is told by
the tokens. -/
theorem Forms.unique (hclosed : ∀ o c, closed o c → closes c = true)
    (h : Forms AnyCloser ts ds) : ∀ {us : List Token} {es : List Datum} {r r' : List Token},
      Forms closed us es → ts ++ r = us ++ r' → Stops r → Stops r' → ts = us ∧ ds = es := by
  induction h with
  | nil =>
      intro us es r r' h' heq hr _
      obtain ⟨rfl, rfl⟩ := h'.nil_of_stops hr heq
      exact ⟨rfl, rfl⟩
  | @datum ts ds d hts ih =>
      intro us es r r' h' heq hr hr'
      cases h' with
      | nil =>
          exact absurd (Forms.nil_of_stops (.datum d hts) hr' heq.symm).1 (List.cons_ne_nil _ _)
      | datum d' h' =>
          rw [List.cons_append, List.cons_append, List.cons.injEq, Token.datum.injEq] at heq
          obtain ⟨rfl, rfl⟩ := ih h' heq.2 hr hr'
          exact ⟨by rw [heq.1], by rw [heq.1]⟩
      | prefixed => cases heq
      | bracket => cases heq
  | @prefixed ch name ts d ds hname hts ih =>
      intro us es r r' h' heq hr hr'
      cases h' with
      | nil =>
          exact absurd (Forms.nil_of_stops (.prefixed hname hts) hr' heq.symm).1
            (List.cons_ne_nil _ _)
      | datum => cases heq
      | prefixed hname' h' =>
          rw [List.cons_append, List.cons_append, List.cons.injEq, Token.char.injEq] at heq
          obtain ⟨rfl, htail⟩ := heq
          obtain ⟨rfl, hds⟩ := ih h' htail hr hr'
          cases hds
          cases hname.symm.trans hname'
          exact ⟨rfl, rfl⟩
      | bracket hhead =>
          rw [List.cons_append, List.cons_append, List.cons.injEq, Token.char.injEq] at heq
          rw [← heq.1, bracketHead_prefixName hname] at hhead
          cases hhead
  | @bracket o c head ts us ds es hhead hc hts hus ih ih' =>
      intro vs fs r r' h' heq hr hr'
      cases h' with
      | nil =>
          exact absurd (Forms.nil_of_stops (.bracket hhead hc hts hus) hr' heq.symm).1
            (List.cons_ne_nil _ _)
      | datum => cases heq
      | prefixed hname =>
          rw [List.cons_append, List.cons_append, List.cons.injEq, Token.char.injEq] at heq
          rw [heq.1, bracketHead_prefixName hname] at hhead
          cases hhead
      | bracket hhead' hc' hin hout =>
          simp only [List.cons_append, List.append_assoc, List.cons.injEq, Token.char.injEq] at heq
          obtain ⟨rfl, heq⟩ := heq
          obtain ⟨rfl, rfl⟩ := ih hin heq (stops_closer hc _) (stops_closer (hclosed _ _ hc') _)
          rw [List.append_right_inj, List.cons.injEq, Token.char.injEq] at heq
          obtain ⟨rfl, heq⟩ := heq
          obtain ⟨rfl, rfl⟩ := ih' hout heq hr hr'
          cases hhead.symm.trans hhead'
          exact ⟨rfl, rfl⟩

/-! ## Reading what is there -/

variable {tonumber : Atom → Option (BitVec 64)}

/-- `next_token`, called again and again, takes these tokens off the stream. -/
inductive Takes (tonumber : Atom → Option (BitVec 64)) : Stream → List Token → Stream → Prop where
  | nil (s : Stream) : Takes tonumber s [] s
  | cons {s s1 s' : Stream} {tok : Tok} {ts : List Token} :
      nextToken tonumber s = .ok (some tok, s1) → Takes tonumber s1 ts s' →
      Takes tonumber s (tok.token :: ts) s'

namespace Takes

variable {s s1 s' : Stream}

theorem append (h : Takes tonumber s ts s1) (h' : Takes tonumber s1 us s') :
    Takes tonumber s (ts ++ us) s' := by
  induction h with
  | nil => exact h'
  | cons hnext _ ih => exact .cons hnext (ih h')

theorem head {t : Token} (h : Takes tonumber s (t :: ts) s') :
    ∃ tok s1, nextToken tonumber s = .ok (some tok, s1) ∧ tok.token = t
      ∧ Takes tonumber s1 ts s' := by
  cases h with
  | cons hnext h => exact ⟨_, _, hnext, rfl, h⟩

theorem split (h : Takes tonumber s (ts ++ us) s') :
    ∃ s1, Takes tonumber s ts s1 ∧ Takes tonumber s1 us s' := by
  induction ts generalizing s with
  | nil => exact ⟨s, .nil s, h⟩
  | cons t ts ih =>
      rw [List.cons_append] at h
      obtain ⟨tok, s2, hnext, rfl, hrest⟩ := h.head
      obtain ⟨s1, hts, hus⟩ := ih hrest
      exact ⟨s1, .cons hnext hts, hus⟩

end Takes

/-- What is left of the stream are these tokens, with this ending. -/
structure Holding (tonumber : Atom → Option (BitVec 64)) (s : Stream) (ts : List Token)
    (e : Ending) : Prop where
  ends : Ends s.text
  lex : lex tonumber .blank s.text = (ts, e)

theorem Holding.next {s : Stream} {t : Token} {e : Ending} (h : Holding tonumber s (t :: ts) e) :
    ∃ tok s', nextToken tonumber s = .ok (some tok, s') ∧ tok.token = t
      ∧ Holding tonumber s' ts e := by
  have hfirst := nextToken_lex tonumber s h.ends
  rw [h.lex] at hfirst
  generalize hr : nextToken tonumber s = r at hfirst
  cases hfirst with
  | token hsuf hlex => exact ⟨_, _, rfl, rfl, h.ends.suffix hsuf, hlex⟩

theorem Holding.takes {s : Stream} {e : Ending} (h : Holding tonumber s (ts ++ us) e) :
    ∃ s', Takes tonumber s ts s' := by
  induction ts generalizing s with
  | nil => exact ⟨s, .nil s⟩
  | cons t ts ih =>
      obtain ⟨tok, s1, hnext, rfl, hrest⟩ := h.next
      obtain ⟨s', hs'⟩ := ih hrest
      exact ⟨s', .cons hnext hs'⟩

/-- What is taken of the tokens are the first ones. -/
theorem Holding.of_takes {s s' : Stream} {e : Ending} (htakes : Takes tonumber s us s')
    (h : Holding tonumber s ts e) : ∃ rest, ts = us ++ rest := by
  induction htakes generalizing ts with
  | nil => exact ⟨ts, rfl⟩
  | @cons s s1 s' tok us hnext _ ih =>
      have hfirst := nextToken_lex tonumber s h.ends
      rw [h.lex, hnext] at hfirst
      cases hfirst with
      | token hsuf hlex =>
          obtain ⟨rest, rfl⟩ := ih ⟨h.ends.suffix hsuf, hlex⟩
          exact ⟨rest, rfl⟩

theorem token_char {tok : Tok} {ch : Byte} (h : tok.token = .char ch) : tok = .char ch := by
  cases tok with
  | char c =>
      cases h
      rfl
  | node e => cases h

theorem token_datum {tok : Tok} {d : Datum} (h : tok.token = .datum d) :
    ∃ e, tok = .node e ∧ e.datum = d := by
  cases tok with
  | char c => cases h
  | node e =>
      cases h
      exact ⟨e, rfl, rfl⟩

/-! ### The calls one by one -/

theorem readList_closer {fuel : Nat} {n : Int} {s : Stream} {c : Byte} {data : List Sexp}
    (hc : closes c = true) :
    readList tonumber (fuel + 1) n s (some (.char c)) data = .ok (data, n - 1, s) := by
  rw [readList]
  simp only [hc, if_true]
  rfl

/-- An expression is read, and then the next token. -/
theorem readList_sexp {fuel : Nat} {n : Int} {s : Stream} {tok : Tok} (data : List Sexp)
    (htok : ∀ c, tok = .char c → closes c = false) :
    readList tonumber (fuel + 1) n s (some tok) data
      = (readSexp tonumber fuel n s tok >>= fun r => r.1.elim (.ok (data, r.2)) fun e =>
          nextToken tonumber r.2.2 >>= fun t =>
            readList tonumber fuel r.2.1 t.2 t.1 (data ++ [e])) := by
  cases tok with
  | char c =>
      rw [readList, htok c rfl, if_neg Bool.false_ne_true]
      rcases readSexp tonumber fuel n s (.char c) with msg | ⟨x, n1, s1⟩
      · rfl
      · cases x <;> rfl
  | node e =>
      rw [readList]
      · rcases readSexp tonumber fuel n s (.node e) with msg | ⟨x, n1, s1⟩
        · rfl
        · cases x <;> rfl
      · exact nofun

theorem readList_next {fuel : Nat} {n n1 : Int} {s s1 s2 : Stream} {tok : Tok} {tok' : Option Tok}
    {data : List Sexp} {x : Sexp} (htok : ∀ c, tok = .char c → closes c = false)
    (hsexp : readSexp tonumber fuel n s tok = .ok (some x, n1, s1))
    (hnext : nextToken tonumber s1 = .ok (tok', s2)) :
    readList tonumber (fuel + 1) n s (some tok) data
      = readList tonumber fuel n1 s2 tok' (data ++ [x]) := by
  rw [readList_sexp data htok, hsexp]
  show (nextToken tonumber s1 >>= _) = _
  rw [hnext]
  rfl

/-- What `read_sexp` does with a special character. -/
theorem readSexp_char (fuel : Nat) (n : Int) {s s1 : Stream} {tok : Tok} (ch : Byte)
    (hnext : nextToken tonumber s = .ok (some tok, s1)) :
    (∃ name, prefixName ch = some name ∧ readSexp tonumber (fuel + 1) n s (.char ch)
        = readPrefixed tonumber fuel n s1 tok s.line name)
    ∨ (∃ head syms, bracketHead ch = some head ∧ syms.map Sexp.datum = head.map .symbol
      ∧ readSexp tonumber (fuel + 1) n s (.char ch)
        = readBracket tonumber fuel n s1 tok s.line syms)
    ∨ prefixName ch = none ∧ bracketHead ch = none
      ∧ readSexp tonumber (fuel + 1) n s (.char ch) = .error "Bad AST tree!" := by
  have hrun : readSexp tonumber (fuel + 1) n s (.char ch)
      = if ch = char '\'' then
          readPrefixed tonumber fuel n s1 tok s.line (atom ['q', 'u', 'o', 't', 'e'])
        else if ch = char ',' then
          readPrefixed tonumber fuel n s1 tok s.line (atom ['u', 'n', 'q', 'u', 'o', 't', 'e'])
        else if ch = char '@' then
          readPrefixed tonumber fuel n s1 tok s.line (atom ['u', 'n', 'r', 'e', 'f'])
        else if ch = char '[' then
          readBracket tonumber fuel n s1 tok s.line
            [.symbol (atom ['v', 'e', 'c', 't', 'o', 'r']) s1.line]
        else if ch = char '{' then
          readBracket tonumber fuel n s1 tok s.line [.symbol (atom ['m', 'a', 'p']) s1.line]
        else if ch = char '(' then readBracket tonumber fuel n s1 tok s.line []
        else .error "Bad AST tree!" := by
    rw [readSexp, hnext]
    rfl
  rw [hrun]
  by_cases hquote : ch = char '\''
  · subst hquote
    exact Or.inl ⟨_, rfl, rfl⟩
  by_cases hunquote : ch = char ','
  · subst hunquote
    exact Or.inl ⟨_, rfl, rfl⟩
  by_cases hunref : ch = char '@'
  · subst hunref
    exact Or.inl ⟨_, rfl, rfl⟩
  by_cases hvector : ch = char '['
  · subst hvector
    exact Or.inr (Or.inl ⟨_, _, rfl, rfl, rfl⟩)
  by_cases hmap : ch = char '{'
  · subst hmap
    exact Or.inr (Or.inl ⟨_, _, rfl, rfl, rfl⟩)
  by_cases hlist : ch = char '('
  · subst hlist
    exact Or.inr (Or.inl ⟨_, _, rfl, rfl, rfl⟩)
  · refine Or.inr (Or.inr ⟨?_, ?_, ?_⟩)
    · rw [prefixName, if_neg hquote, if_neg hunquote, if_neg hunref]
    · rw [bracketHead, if_neg hvector, if_neg hmap, if_neg hlist]
    · rw [if_neg hquote, if_neg hunquote, if_neg hunref, if_neg hvector, if_neg hmap,
        if_neg hlist]

theorem readPrefixed_some {fuel : Nat} {n n' : Int} {line : Nat} {s s' : Stream} {tok : Tok}
    {x : Sexp}
    (name : Atom) (hsexp : readSexp tonumber fuel n s tok = .ok (some x, n', s')) :
    readPrefixed tonumber (fuel + 1) n s tok line name
      = .ok (some (.sexp [.symbol name s'.line, x] line), n', s') := by
  rw [readPrefixed, hsexp]
  rfl

theorem readBracket_closed {fuel line : Nat} {lv : Int} {s s' : Stream} {tok : Tok}
    {data data' : List Sexp}
    (hlist : readList tonumber fuel (lv + 1) s (some tok) data = .ok (data', lv, s')) :
    readBracket tonumber (fuel + 1) lv s tok line data = .ok (some (.sexp data' line), lv, s') := by
  rw [readBracket, hlist]
  show (if lv ≠ lv then _ else _) = _
  rw [if_neg (not_not_intro rfl)]

/-! ### Sequences -/

/-- `read_list` reads these expressions up to a closing bracket. -/
def ListRead (tonumber : Atom → Option (BitVec 64)) (ts : List Token) (ds : List Datum) : Prop :=
  ∀ fuel n s tok data c us s', 3 * ts.length < fuel → closes c = true →
    tok.token :: us = ts ++ [.char c] → Takes tonumber s us s' →
    ∃ es, readList tonumber fuel n s (some tok) data = .ok (data ++ es, n - 1, s')
      ∧ es.map Sexp.datum = ds

/-- `read_sexp` reads the first of these expressions, and `read_list` can go on
with the others. -/
def FirstRead (tonumber : Atom → Option (BitVec 64)) (ts : List Token) (ds : List Datum) : Prop :=
  ∀ d ds', ds = d :: ds' → ∃ vs us, ts = vs ++ us ∧ vs ≠ [] ∧ Forms AnyCloser us ds'
    ∧ ListRead tonumber us ds' ∧
    ∀ fuel n s tok ws s', 3 * vs.length ≤ fuel → tok.token :: ws = vs → Takes tonumber s ws s' →
      ∃ x, readSexp tonumber fuel n s tok = .ok (some x, n, s') ∧ x.datum = d

theorem listRead_nil : ListRead tonumber [] [] := by
  intro fuel n s tok data c us s' hfuel hc heq hs
  obtain ⟨fuel, rfl⟩ : ∃ f, fuel = f + 1 := ⟨fuel - 1, by omega⟩
  obtain ⟨htok, rfl⟩ := List.cons.inj heq
  cases hs
  rw [token_char htok, readList_closer hc]
  exact ⟨[], by rw [List.append_nil], rfl⟩

/-- The first expression, then the others. -/
theorem listRead_cons {t : Token} {d : Datum}
    (ht : ∀ c, t = .char c → closes c = false) (h : FirstRead tonumber (t :: ts) (d :: ds)) :
    ListRead tonumber (t :: ts) (d :: ds) := by
  intro fuel n s tok data c us s' hfuel hc heq hs
  obtain ⟨fuel, rfl⟩ : ∃ f, fuel = f + 1 := ⟨fuel - 1, by omega⟩
  obtain ⟨vs, rest, hts, hne, -, hlist, hfirst⟩ := h d ds rfl
  have hlen : vs.length + rest.length = (t :: ts).length := by rw [hts, List.length_append]
  obtain ⟨v, ws, rfl⟩ := List.exists_cons_of_ne_nil hne
  rw [hts, List.append_assoc, List.cons_append] at heq
  obtain ⟨rfl, rfl⟩ := List.cons.inj heq
  obtain ⟨s1, hws, hs⟩ := hs.split
  obtain ⟨x, hsexp, hx⟩ := hfirst fuel n s tok ws s1 (by omega) rfl hws
  have htok : ∀ c, tok = .char c → closes c = false := by
    rintro c rfl
    exact ht c (List.cons.inj hts).1
  obtain ⟨t', ts', hts'⟩ : ∃ t' ts', rest ++ [.char c] = t' :: ts' :=
    List.exists_cons_of_ne_nil (by simp)
  rw [hts'] at hs
  obtain ⟨tok', s2, hnext, htok', hs⟩ := hs.head
  have hless : 3 * rest.length < fuel := by
    rw [List.length_cons] at hlen
    omega
  obtain ⟨es, hrun, hes⟩ := hlist fuel n s2 tok' (data ++ [x]) c ts' s' hless hc
    (by rw [htok', hts']) hs
  refine ⟨x :: es, ?_, by rw [List.map_cons, hx, hes]⟩
  rw [readList_next htok hsexp hnext, hrun, List.append_assoc]
  rfl

theorem firstRead_prefixed {ch : Byte} {name : Atom} {d : Datum} (hname : prefixName ch = some name)
    (h : FirstRead tonumber ts (d :: ds)) :
    FirstRead tonumber (.char ch :: ts) (.list [.symbol name, d] :: ds) := by
  intro d' ds' heq
  cases heq
  obtain ⟨vs, us, rfl, hne, hforms, hlist, hfirst⟩ := h d ds rfl
  refine ⟨.char ch :: vs, us, rfl, List.cons_ne_nil _ _, hforms, hlist,
    fun fuel n s tok ws s' hfuel heq hs => ?_⟩
  rw [List.length_cons] at hfuel
  obtain ⟨fuel, rfl⟩ : ∃ f, fuel = f + 2 := ⟨fuel - 2, by omega⟩
  obtain ⟨htok, rfl⟩ := List.cons.inj heq
  obtain ⟨t, ts', rfl⟩ := List.exists_cons_of_ne_nil hne
  obtain ⟨tok', s1, hnext, htok', hs⟩ := hs.head
  obtain ⟨x, hsexp, hx⟩ := hfirst fuel n s1 tok' ts' s' (by omega) (by rw [htok']) hs
  rw [token_char htok]
  rcases readSexp_char (fuel + 1) n ch hnext with
    ⟨name', hname', hrun⟩ | ⟨_, _, hhead, -⟩ | ⟨hnone, -⟩
  · cases hname.symm.trans hname'
    refine ⟨_, hrun.trans (readPrefixed_some name hsexp), ?_⟩
    simp only [Sexp.datum, Sexp.data, hx]
  · rw [bracketHead_prefixName hname] at hhead
    cases hhead
  · rw [hnone] at hname
    cases hname

theorem firstRead_bracket {o c : Byte} {head : List Atom} (hhead : bracketHead o = some head)
    (hc : closes c = true) (hin : ListRead tonumber ts ds) (hforms : Forms AnyCloser us es)
    (hout : ListRead tonumber us es) : FirstRead tonumber (.char o :: (ts ++ .char c :: us))
      (.list (head.map .symbol ++ ds) :: es) := by
  intro d' ds' heq
  cases heq
  refine ⟨.char o :: (ts ++ [.char c]), us, by simp, List.cons_ne_nil _ _, hforms, hout,
    fun fuel n s tok ws s' hfuel heq hs => ?_⟩
  rw [List.length_cons, List.length_append, List.length_singleton] at hfuel
  obtain ⟨fuel, rfl⟩ : ∃ f, fuel = f + 2 := ⟨fuel - 2, by omega⟩
  obtain ⟨htok, rfl⟩ := List.cons.inj heq
  obtain ⟨t, ts', hts'⟩ : ∃ t ts', ts ++ [.char c] = t :: ts' :=
    List.exists_cons_of_ne_nil (by simp)
  rw [hts'] at hs
  obtain ⟨tok', s1, hnext, htok', hs⟩ := hs.head
  rw [token_char htok]
  rcases readSexp_char (fuel + 1) n o hnext with
    ⟨_, hname, -⟩ | ⟨head', syms, hhead', hsyms, hrun⟩ | ⟨-, hnone, -⟩
  · rw [bracketHead_prefixName hname] at hhead
    cases hhead
  · cases hhead.symm.trans hhead'
    obtain ⟨xs, hlist, hxs⟩ := hin fuel (n + 1) s1 tok' syms c ts' s' (by omega) hc
      (by rw [htok', hts']) hs
    rw [Int.add_sub_cancel] at hlist
    refine ⟨_, hrun.trans (readBracket_closed hlist), ?_⟩
    rw [Sexp.datum, data_eq_map, List.map_append, hsyms, hxs]
  · rw [hnone] at hhead
    cases hhead

variable (tonumber) in
/-- **Reading expressions.** What is a sequence of complete expressions is
read as one. -/
theorem forms_read (h : Forms AnyCloser ts ds) :
    ListRead tonumber ts ds ∧ FirstRead tonumber ts ds := by
  induction h with
  | nil => exact ⟨listRead_nil, nofun⟩
  | @datum ts ds d hforms ih =>
      have hfirst : FirstRead tonumber (.datum d :: ts) (d :: ds) := by
        intro d' ds' heq
        cases heq
        refine ⟨[.datum d], ts, rfl, List.cons_ne_nil _ _, hforms, ih.1,
          fun fuel n s tok ws s' hfuel heq hs => ?_⟩
        rw [List.length_singleton] at hfuel
        obtain ⟨fuel, rfl⟩ : ∃ f, fuel = f + 1 := ⟨fuel - 1, by omega⟩
        obtain ⟨htok, rfl⟩ := List.cons.inj heq
        obtain ⟨x, rfl, hx⟩ := token_datum htok
        cases hs
        exact ⟨x, by rw [readSexp], hx⟩
      exact ⟨listRead_cons nofun hfirst, hfirst⟩
  | @prefixed ch name ts d ds hname _ ih =>
      refine ⟨listRead_cons ?_ (firstRead_prefixed hname ih.2), firstRead_prefixed hname ih.2⟩
      intro c hc
      cases hc
      refine eq_false_of_ne_true fun hcloses => ?_
      rw [prefixName_closes hcloses] at hname
      cases hname
  | bracket hhead hc _ hforms ih ih' =>
      have hfirst := firstRead_bracket hhead hc ih.1 hforms ih'.1
      refine ⟨listRead_cons ?_ hfirst, hfirst⟩
      intro c hc
      cases hc
      refine eq_false_of_ne_true fun hcloses => ?_
      rw [bracketHead_closes hcloses] at hhead
      cases hhead

/-- One expression is read, whatever is behind it. -/
theorem Forms.one_read {d : Datum} (h : Forms AnyCloser ts [d]) (fuel : Nat) (n : Int) (s : Stream)
    (tok : Tok) (us : List Token) (s' : Stream) (hfuel : 3 * ts.length ≤ fuel)
    (hts : tok.token :: us = ts) (htakes : Takes tonumber s us s') :
    ∃ x, readSexp tonumber fuel n s tok = .ok (some x, n, s') ∧ x.datum = d := by
  obtain ⟨vs, rest, rfl, -, hrest, -, hfirst⟩ := (forms_read tonumber h).2 _ _ rfl
  cases hrest
  rw [List.append_nil] at hfuel hts
  exact hfirst fuel n s tok us s' hfuel hts htakes

/-! ## What was read -/

theorem except_bind {ε α β : Type} {x : Except ε α} {f : α → Except ε β} {b : β}
    (h : x >>= f = .ok b) : ∃ a, x = .ok a ∧ f a = .ok b := by
  cases x with
  | error err => cases h
  | ok a => exact ⟨a, rfl, h⟩

/-- What `read_sexp` returns, it has read, and it leaves `num_sexp` alone. -/
def SexpSound (tonumber : Atom → Option (BitVec 64)) (fuel : Nat) : Prop :=
  ∀ n s tok x n' s', readSexp tonumber fuel n s tok = .ok (x, n', s') → n' = n ∧ ∀ y, x = some y →
    ∃ us, Takes tonumber s us s' ∧ Forms AnyCloser (tok.token :: us) [y.datum]

/-- A `read_list` that ends with a closing bracket has read what is before it. -/
def ListSound (tonumber : Atom → Option (BitVec 64)) (fuel : Nat) : Prop :=
  ∀ n s tok data data' n' s', readList tonumber fuel n s (some tok) data = .ok (data', n', s') →
    n' ≠ n → n' = n - 1 ∧ ∃ us vs c es, Takes tonumber s us s'
      ∧ tok.token :: us = vs ++ [.char c] ∧ closes c = true ∧ data' = data ++ es
      ∧ Forms AnyCloser vs (es.map Sexp.datum)

/-! ### The calls one by one -/

theorem readPrefixed_inv {fuel line : Nat} {n n' : Int} {s s' : Stream} {tok : Tok} {name : Atom}
    {x : Option Sexp}
    (h : readPrefixed tonumber fuel n s tok line name = .ok (x, n', s')) :
    ∃ f y, f < fuel ∧ readSexp tonumber f n s tok = .ok (y, n', s')
      ∧ x = y.map fun e => .sexp [.symbol name s'.line, e] line := by
  cases fuel with
  | zero => cases h
  | succ fuel =>
      rw [readPrefixed] at h
      obtain ⟨⟨y, n1, s1⟩, hsexp, h⟩ := except_bind h
      cases y <;>
      · cases h
        exact ⟨fuel, _, Nat.lt_succ_self _, hsexp, rfl⟩

theorem readBracket_inv {fuel line : Nat} {lv n' : Int} {s s' : Stream} {tok : Tok}
    {data : List Sexp} {x : Option Sexp}
    (h : readBracket tonumber fuel lv s tok line data = .ok (x, n', s')) :
    ∃ f data', f < fuel ∧ readList tonumber f (lv + 1) s (some tok) data = .ok (data', lv, s')
      ∧ n' = lv ∧ x = some (.sexp data' line) := by
  cases fuel with
  | zero => cases h
  | succ fuel =>
      rw [readBracket] at h
      obtain ⟨⟨data', n1, s1⟩, hlist, h⟩ := except_bind h
      dsimp only at h
      split at h
      · cases h
      · rename_i hn
        cases h
        exact ⟨fuel, data', Nat.lt_succ_self _, not_not.mp hn ▸ hlist, not_not.mp hn, rfl⟩

theorem readList_inv {fuel : Nat} {n : Int} {s : Stream} {tok : Tok} {data : List Sexp}
    {r : List Sexp × Int × Stream} (h : readList tonumber fuel n s (some tok) data = .ok r) :
    (∃ c, tok = .char c ∧ closes c = true ∧ r = (data, n - 1, s))
    ∨ ∃ f x n1 s1, f < fuel ∧ readSexp tonumber f n s tok = .ok (x, n1, s1)
      ∧ (x = none ∧ r = (data, n1, s1)
        ∨ ∃ e tok' s2, x = some e ∧ nextToken tonumber s1 = .ok (tok', s2)
          ∧ readList tonumber f n1 s2 tok' (data ++ [e]) = .ok r) := by
  cases fuel with
  | zero => cases h
  | succ fuel =>
      by_cases hclose : ∃ c, tok = .char c ∧ closes c = true
      · obtain ⟨c, rfl, hc⟩ := hclose
        rw [readList_closer hc] at h
        cases h
        exact Or.inl ⟨c, rfl, hc, rfl⟩
      · rw [readList_sexp data fun c hc => eq_false_of_ne_true fun hcloses =>
          hclose ⟨c, hc, hcloses⟩] at h
        obtain ⟨⟨x, n1, s1⟩, hsexp, h⟩ := except_bind h
        refine Or.inr ⟨fuel, x, n1, s1, Nat.lt_succ_self _, hsexp, ?_⟩
        cases x with
        | none =>
            cases h
            exact Or.inl ⟨rfl, rfl⟩
        | some e =>
            obtain ⟨⟨tok', s2⟩, hnext, h⟩ := except_bind h
            exact Or.inr ⟨e, tok', s2, rfl, hnext, h⟩

theorem readSexp_inv {fuel : Nat} {n n' : Int} {s s' : Stream} {ch : Byte} {x : Option Sexp}
    (h : readSexp tonumber fuel n s (.char ch) = .ok (x, n', s')) :
    (nextToken tonumber s = .ok (none, s') ∧ x = none ∧ n' = n)
    ∨ ∃ f tok s1, f < fuel ∧ nextToken tonumber s = .ok (some tok, s1)
      ∧ ((∃ name, prefixName ch = some name
          ∧ readPrefixed tonumber f n s1 tok s.line name = .ok (x, n', s'))
        ∨ ∃ head syms, bracketHead ch = some head ∧ syms.map Sexp.datum = head.map .symbol
          ∧ readBracket tonumber f n s1 tok s.line syms = .ok (x, n', s')) := by
  cases fuel with
  | zero => cases h
  | succ fuel =>
      have hbody := h
      rw [readSexp] at h
      obtain ⟨⟨tok, s1⟩, hnext, h⟩ := except_bind h
      cases tok with
      | none =>
          cases h
          exact Or.inl ⟨hnext, rfl, rfl⟩
      | some tok =>
          refine Or.inr ⟨fuel, tok, s1, Nat.lt_succ_self _, hnext, ?_⟩
          rcases readSexp_char fuel n ch hnext with
            ⟨name, hname, hrun⟩ | ⟨head, syms, hhead, hsyms, hrun⟩ | ⟨-, -, hrun⟩
          · exact Or.inl ⟨name, hname, hrun.symm.trans hbody⟩
          · exact Or.inr ⟨head, syms, hhead, hsyms, hrun.symm.trans hbody⟩
          · cases hrun.symm.trans hbody

/-! ### Both functions -/

theorem sexp_sound {fuel : Nat} (ih : ∀ f < fuel, ListSound tonumber f ∧ SexpSound tonumber f) :
    SexpSound tonumber fuel := by
  intro n s tok x n' s' h
  cases tok with
  | node y =>
      cases fuel with
      | zero => cases h
      | succ fuel =>
          rw [readSexp] at h
          cases h
          refine ⟨rfl, fun y hy => ⟨[], .nil s, ?_⟩⟩
          cases hy
          exact .datum _ .nil
  | char ch =>
      rcases readSexp_inv h with ⟨-, rfl, rfl⟩ | ⟨f, tok, s1, hf, hnext, hread⟩
      · exact ⟨rfl, nofun⟩
      rcases hread with ⟨name, hname, hread⟩ | ⟨head, syms, hhead, hsyms, hread⟩
      · obtain ⟨g, y, hg, hsexp, rfl⟩ := readPrefixed_inv hread
        obtain ⟨rfl, hy⟩ := (ih g (Nat.lt_trans hg hf)).2 _ _ _ _ _ _ hsexp
        refine ⟨rfl, fun z hz => ?_⟩
        obtain ⟨y, rfl, rfl⟩ := Option.map_eq_some_iff.mp hz
        obtain ⟨us, htakes, hforms⟩ := hy y rfl
        exact ⟨tok.token :: us, .cons hnext htakes, .prefixed hname hforms⟩
      · obtain ⟨g, data, hg, hlist, rfl, rfl⟩ := readBracket_inv hread
        obtain ⟨-, us, vs, c, es, htakes, heq, hc, rfl, hforms⟩ :=
          (ih g (Nat.lt_trans hg hf)).1 _ _ _ _ _ _ _ hlist (by omega)
        refine ⟨rfl, fun z hz => ⟨tok.token :: us, .cons hnext htakes, ?_⟩⟩
        cases hz
        rw [heq, Sexp.datum, data_eq_map, List.map_append, hsyms]
        exact .bracket hhead hc hforms .nil

theorem list_sound {fuel : Nat} (ih : ∀ f < fuel, ListSound tonumber f ∧ SexpSound tonumber f) :
    ListSound tonumber fuel := by
  intro n s tok data data' n' s' h hne
  rcases readList_inv h with ⟨c, rfl, hc, hr⟩ | ⟨f, x, n1, s1, hf, hsexp, hread⟩
  · cases hr
    exact ⟨rfl, [], [], c, [], .nil s, rfl, hc, (List.append_nil _).symm, .nil⟩
  obtain ⟨rfl, hx⟩ := (ih f hf).2 _ _ _ _ _ _ hsexp
  rcases hread with ⟨rfl, hr⟩ | ⟨y, tok', s2, rfl, hnext, hrun⟩
  · cases hr
    exact absurd rfl hne
  obtain ⟨us, htakes, hforms⟩ := hx y rfl
  cases tok' with
  | some tok' =>
      obtain ⟨hn, us', vs, c, es, htakes', heq, hc, rfl, hforms'⟩ :=
        (ih f hf).1 _ _ _ _ _ _ _ hrun hne
      refine ⟨hn, us ++ tok'.token :: us', tok.token :: us ++ vs, c, y :: es,
        htakes.append (.cons hnext htakes'), ?_, hc, List.append_assoc .., hforms.append hforms'⟩
      rw [heq, List.cons_append, List.cons_append, List.append_assoc]
  | none =>
      -- the text has ended, and `read_list` does not count that as an end
      cases f with
      | zero => cases hrun
      | succ f =>
          rw [readList] at hrun
          cases hrun
          exact absurd rfl hne

/-- **Soundness.** What was read to a closing bracket is a sequence of complete
expressions. -/
theorem read_sound (fuel : Nat) : ListSound tonumber fuel ∧ SexpSound tonumber fuel := by
  induction fuel using Nat.strongRecOn with
  | ind fuel ih => exact ⟨list_sound ih, sexp_sound ih⟩

end Saurus
