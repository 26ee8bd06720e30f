import Saurus.Read.Reader

/-!
# Tokens

What a text consists of, said without a stream: an automaton goes over the
text character by character and gives the tokens and how the text ends
(`lex`, and `lexPart` for a part of a text). `next_token` takes the characters
of one token (`nextToken_spec`), and keeps of an atom in whose middle the text
ends the first character. Of a text that does not end so it takes the first
token and leaves the others (`nextToken_lex`).
-/

namespace Saurus

/-! ## Data -/

/-- A node of the syntax tree without its lines. -/
inductive Datum where
  | number (n : BitVec 64)
  | symbol (a : Atom)
  | list (ds : List Datum)

mutual

def Sexp.datum : Sexp → Datum
  | .number n _ => .number n
  | .symbol a _ => .symbol a
  | .sexp data _ => .list (Sexp.data data)

def Sexp.data : List Sexp → List Datum
  | [] => []
  | e :: es => e.datum :: Sexp.data es

end

theorem data_eq_map : ∀ es : List Sexp, Sexp.data es = es.map Sexp.datum
  | [] => rfl
  | e :: es => by rw [Sexp.data, data_eq_map es, List.map_cons]

/-- A special character, or what is complete by itself. -/
inductive Token where
  | char (ch : Byte)
  | datum (d : Datum)

def Tok.token : Tok → Token
  | .char ch => .char ch
  | .node e => .datum e.datum

/-! ## The automaton -/

/-- Where in a text one is: between tokens, in a comment, in a word, in a
string with the character that ends it, behind a `^` there, or behind `^!`. -/
inductive Mode where
  | blank
  | comment
  | word (str : Atom)
  | string (bound : Byte) (str : Atom)
  | escape (bound : Byte) (str : Atom)
  | bound (str : Atom)

/-- How a text ends: between tokens or with a word, in a comment, or in a
string that is not ended or not well formed. -/
inductive Ending where
  | done | comment | string
deriving DecidableEq

/-- The number or symbol that a word is. -/
def wordDatum (tonumber : Atom → Option (BitVec 64)) (str : Atom) : Datum :=
  match tonumber str with
  | some n => .number n
  | none => .symbol str

/-- A string is a quoted symbol. -/
def stringDatum (str : Atom) : Datum :=
  .list [.symbol (atom ['q', 'u', 'o', 't', 'e']), .symbol str]

/-- What a character begins that no token is before. -/
def Mode.start (ch : Byte) : List Token × Mode :=
  if isSpace ch then ([], .blank)
  else if ch = Saurus.char ';' then ([], .comment)
  else if ch = Saurus.char '"' then ([], .string ch [])
  else if specialChars.contains ch then ([.char ch], .blank)
  else ([], .word [ch])

/-- Tokens before those that follow. -/
def emitTokens (ts : List Token) (r : List Token × Ending) : List Token × Ending := (ts ++ r.1, r.2)

/-- The tokens of a text, and how it ends. -/
def lex (tonumber : Atom → Option (BitVec 64)) : Mode → List Byte → List Token × Ending
  | .blank, [] => ([], .done)
  | .comment, [] => ([], .comment)
  | .word str, [] => ([.datum (wordDatum tonumber str)], .done)
  | .string _ _, [] => ([], .string)
  | .escape _ _, [] => ([], .string)
  | .bound _, [] => ([], .string)
  | .blank, c :: cs => emitTokens (Mode.start c).1 (lex tonumber (Mode.start c).2 cs)
  | .comment, c :: cs => lex tonumber (if c = char '\n' then .blank else .comment) cs
  | .word str, c :: cs =>
      if isOrdinary c then lex tonumber (.word (str ++ [c])) cs
      else emitTokens (.datum (wordDatum tonumber str) :: (Mode.start c).1)
        (lex tonumber (Mode.start c).2 cs)
  | .string b str, c :: cs =>
      if c = char '^' then lex tonumber (.escape b str) cs
      else if c ≠ b then lex tonumber (.string b (str ++ [c])) cs
      else emitTokens [.datum (stringDatum str)] (lex tonumber .blank cs)
  | .escape b str, c :: cs =>
      match escaped c with
      | some e => lex tonumber (.string b (str ++ [e])) cs
      | none => if c = char '!' then lex tonumber (.bound str) cs else ([], .string)
  | .bound str, c :: cs => lex tonumber (.string c str) cs

variable {tonumber : Atom → Option (BitVec 64)}

@[simp] theorem emitTokens_nil (r : List Token × Ending) : emitTokens [] r = r := rfl

@[simp] theorem emitTokens_emitTokens (ts us : List Token) (r : List Token × Ending) :
    emitTokens ts (emitTokens us r) = emitTokens (ts ++ us) r := by
  simp [emitTokens]

/-- At the end of a word its token is there, and the rest of the text is as if
no word were before it. -/
theorem lex_word {str : Atom} {c : Byte} {cs : List Byte} (hc : isOrdinary c = false) :
    lex tonumber (.word str) (c :: cs)
      = emitTokens [.datum (wordDatum tonumber str)] (lex tonumber .blank (c :: cs)) := by
  conv_lhs => rw [lex, hc, if_neg Bool.false_ne_true]
  rw [lex, emitTokens_emitTokens]
  rfl

/-! ## Parts of a text -/

/-- A character: the tokens that end with it, and where one is behind it, or
nothing where it spoils a string. -/
def Mode.next (tonumber : Atom → Option (BitVec 64)) : Mode → Byte → Option (List Token × Mode)
  | .blank, c => some (Mode.start c)
  | .comment, c => some ([], if c = char '\n' then .blank else .comment)
  | .word str, c =>
      if isOrdinary c then some ([], .word (str ++ [c]))
      else some (.datum (wordDatum tonumber str) :: (Mode.start c).1, (Mode.start c).2)
  | .string b str, c =>
      if c = char '^' then some ([], .escape b str)
      else if c ≠ b then some ([], .string b (str ++ [c]))
      else some ([.datum (stringDatum str)], .blank)
  | .escape b str, c =>
      match escaped c with
      | some e => some ([], .string b (str ++ [e]))
      | none => if c = char '!' then some ([], .bound str) else none
  | .bound str, c => some ([], .string c str)

/-- The tokens that end in a part of a text, and where one is behind it. -/
def lexPart (tonumber : Atom → Option (BitVec 64)) :
    Mode → List Byte → Option (List Token × Mode)
  | m, [] => some ([], m)
  | m, c :: cs =>
      (m.next tonumber c).bind fun r => (lexPart tonumber r.2 cs).map fun r' => (r.1 ++ r'.1, r'.2)

variable {m m' : Mode} {ts : List Token}

theorem lexPart_append (m : Mode) (c cs : List Byte) :
    lexPart tonumber m (c ++ cs)
      = (lexPart tonumber m c).bind fun r => (lexPart tonumber r.2 cs).map fun r' =>
          (r.1 ++ r'.1, r'.2) := by
  induction c generalizing m with
  | nil => simp [lexPart]
  | cons ch c ih =>
      rw [List.cons_append, lexPart, lexPart]
      rcases m.next tonumber ch with _ | ⟨ts, m1⟩
      · rfl
      · simp only [Option.bind_some, ih m1]
        rcases lexPart tonumber m1 c with _ | ⟨us, m2⟩
        · rfl
        · simp [Function.comp_def]

/-- One part behind another. -/
theorem lexPart_trans {m1 : Mode} {c cs : List Byte} {us : List Token}
    (h : lexPart tonumber m c = some (ts, m1)) (h' : lexPart tonumber m1 cs = some (us, m')) :
    lexPart tonumber m (c ++ cs) = some (ts ++ us, m') := by
  simp [lexPart_append, h, h']

theorem lexPart_cons {m1 : Mode} {ch : Byte} {cs : List Byte} {us : List Token}
    (h : m.next tonumber ch = some (ts, m1)) (h' : lexPart tonumber m1 cs = some (us, m')) :
    lexPart tonumber m (ch :: cs) = some (ts ++ us, m') := by
  simp [lexPart, h, h']

theorem lexPart_start {m1 : Mode} {ch : Byte} {cs : List Byte} {us : List Token}
    (h : Mode.start ch = (ts, m1)) (h' : lexPart tonumber m1 cs = some (us, m')) :
    lexPart tonumber .blank (ch :: cs) = some (ts ++ us, m') :=
  lexPart_cons (congrArg some h) h'

/-- What is behind a part of a text. -/
theorem lexPart_rest {m1 : Mode} {c cs : List Byte} {us : List Token}
    (h : lexPart tonumber m (c ++ cs) = some (us, m')) (h' : lexPart tonumber m c = some (ts, m1)) :
    ∃ vs, lexPart tonumber m1 cs = some (vs, m') ∧ us = ts ++ vs := by
  rw [lexPart_append, h', Option.bind_some] at h
  obtain ⟨⟨vs, m2⟩, hpart, heq⟩ := Option.map_eq_some_iff.mp h
  cases heq
  exact ⟨vs, hpart, rfl⟩

theorem lex_next (m : Mode) (c : Byte) (cs : List Byte) :
    lex tonumber m (c :: cs)
      = (m.next tonumber c).elim ([], .string) fun r => emitTokens r.1 (lex tonumber r.2 cs) := by
  cases m with
  | blank | comment | bound => rfl
  | word str =>
      rw [lex, Mode.next]
      split_ifs <;> rfl
  | string b str =>
      rw [lex, Mode.next]
      split_ifs <;> rfl
  | escape b str =>
      rw [lex, Mode.next]
      rcases escaped c with _ | e
      · dsimp only
        split_ifs <;> rfl
      · rfl

/-- The tokens of a text are those of its part and of the rest. -/
theorem lex_lexPart {c : List Byte} (h : lexPart tonumber m c = some (ts, m')) (cs : List Byte) :
    lex tonumber m (c ++ cs) = emitTokens ts (lex tonumber m' cs) := by
  induction c generalizing m ts with
  | nil =>
      cases h
      rfl
  | cons ch c ih =>
      rw [lexPart] at h
      obtain ⟨⟨us, m1⟩, hnext, h⟩ := Option.bind_eq_some_iff.mp h
      obtain ⟨⟨vs, m2⟩, hpart, heq⟩ := Option.map_eq_some_iff.mp h
      cases heq
      rw [List.cons_append, lex_next, hnext, Option.elim_some, ih hpart, emitTokens_emitTokens]

theorem lex_of_lexPart {c : List Byte} (h : lexPart tonumber m c = some (ts, m')) :
    lex tonumber m c = emitTokens ts (lex tonumber m' []) := by
  rw [← lex_lexPart h [], List.append_nil]

/-- The word before it does not go on into this text. -/
def Stopped (cs : List Byte) : Prop := ∀ ch, cs.head? = some ch → isOrdinary ch = false

/-- A word gives its token where it stops. -/
theorem lexPart_word {str : Atom} {ch : Byte} (cs : List Byte) (hch : isOrdinary ch = false) :
    lexPart tonumber (.word str) (ch :: cs)
      = (lexPart tonumber .blank (ch :: cs)).map fun r =>
          (.datum (wordDatum tonumber str) :: r.1, r.2) := by
  have hword : (Mode.word str).next tonumber ch
      = some (.datum (wordDatum tonumber str) :: (Mode.start ch).1, (Mode.start ch).2) := by
    rw [Mode.next, hch, if_neg Bool.false_ne_true]
  have hblank : Mode.blank.next tonumber ch = some (Mode.start ch) := rfl
  rw [lexPart, lexPart, hword, hblank]
  simp [Function.comp_def]

theorem stopped_nil : Stopped [] := by
  intro ch hch
  cases hch

theorem stopped_cons {ch : Byte} (h : isOrdinary ch = false) (cs : List Byte) :
    Stopped (ch :: cs) := by
  intro c hc
  cases hc
  exact h

theorem lex_stopped {str : Atom} {cs : List Byte} (h : Stopped cs) :
    lex tonumber (.word str) cs
      = emitTokens [.datum (wordDatum tonumber str)] (lex tonumber .blank cs) := by
  cases cs with
  | nil => rfl
  | cons ch cs => exact lex_word (h ch rfl)

/-! ## The loops over characters -/

variable (tonumber)

theorem readSpace_none {s s' : Stream} (h : readSpace s = (none, s')) :
    lexPart tonumber .blank s.text = some ([], .blank) ∧ s'.text = [] := by
  fun_induction readSpace s with
  | case1 s s1 hread =>
      cases h
      obtain ⟨htext, htext'⟩ := Stream.read_none hread
      exact ⟨by rw [htext]; rfl, htext'⟩
  | case2 s ch s1 hread hspace ih =>
      rw [Stream.read_some hread]
      obtain ⟨hpart, htext⟩ := ih h
      have hstart : Mode.start ch = ([], .blank) := if_pos hspace
      exact ⟨lexPart_start hstart hpart, htext⟩
  | case3 => cases h

theorem readSpace_some {s s' : Stream} {c : Byte} (h : readSpace s = (some c, s')) :
    isSpace c = false
      ∧ ∃ gap, s.text = gap ++ c :: s'.text ∧ lexPart tonumber .blank gap = some ([], .blank) := by
  fun_induction readSpace s with
  | case1 => cases h
  | case2 s ch s1 hread hspace ih =>
      obtain ⟨hc, gap, htext, hpart⟩ := ih h
      have hstart : Mode.start ch = ([], .blank) := if_pos hspace
      refine ⟨hc, ch :: gap, ?_, lexPart_start hstart hpart⟩
      rw [Stream.read_some hread, htext, List.cons_append]
  | case3 s ch s1 hread hspace =>
      cases h
      exact ⟨eq_false_of_ne_true hspace, [], Stream.read_some hread, rfl⟩

/-- A comment goes on to the end of the line, or of the text. -/
theorem readComment_spec (s : Stream) :
    (∃ c, s.text = c ++ (readComment s).text ∧ lexPart tonumber .comment c = some ([], .blank))
    ∨ lexPart tonumber .comment s.text = some ([], .comment) ∧ (readComment s).text = [] := by
  fun_induction readComment s with
  | case1 s s1 hread =>
      obtain ⟨htext, htext'⟩ := Stream.read_none hread
      rw [htext, htext']
      exact Or.inr ⟨rfl, rfl⟩
  | case2 s s1 hread =>
      exact Or.inl ⟨[char '\n'], Stream.read_some hread, rfl⟩
  | case3 s ch s1 hread hne ih =>
      have hnext : Mode.comment.next tonumber ch = some ([], .comment) := by
        rw [Mode.next, if_neg hne]
      rw [Stream.read_some hread]
      refine ih.imp ?_ (And.imp_left (lexPart_cons hnext))
      rintro ⟨c, htext, hpart⟩
      exact ⟨ch :: c, by rw [htext, List.cons_append], lexPart_cons hnext hpart⟩

/-- An atom goes on to the first character that is not of one, or is lost. -/
theorem readAtom_spec {s s' : Stream} {str : Atom} {r : Option Atom}
    (h : readAtom s str = (r, s')) :
    ∃ w, s.text = w ++ s'.text ∧ Stopped s'.text
      ∧ (∀ x, lexPart tonumber (.word x) w = some ([], .word (x ++ w)))
      ∧ r = if s'.text = [] then none else some (str ++ w) := by
  fun_induction readAtom s str with
  | case1 s str s1 hread =>
      cases h
      obtain ⟨htext, htext'⟩ := Stream.read_none hread
      rw [htext, htext']
      exact ⟨[], rfl, stopped_nil, fun x => by rw [List.append_nil]; rfl, rfl⟩
  | case2 s str ch s1 hread hord ih =>
      obtain ⟨w, htext, hstop, hpart, hr⟩ := ih h
      refine ⟨ch :: w, by rw [Stream.read_some hread, htext]; rfl, hstop, fun x => ?_, ?_⟩
      · have hnext : (Mode.word x).next tonumber ch = some ([], .word (x ++ [ch])) := by
          rw [Mode.next, if_pos hord]
        rw [List.append_cons]
        exact lexPart_cons hnext (hpart (x ++ [ch]))
      · rw [hr, List.append_assoc]
        rfl
  | case3 s str ch s1 hread hord =>
      cases h
      have htext : (s1.unread ch).text = ch :: s1.text :=
        Stream.text_unread ch (Stream.cache_read hread)
      rw [htext, ← Stream.read_some hread]
      refine ⟨[], rfl, ?_, fun x => by rw [List.append_nil]; rfl, ?_⟩
      · rw [Stream.read_some hread]
        exact stopped_cons (eq_false_of_ne_true hord) _
      · rw [Stream.read_some hread, if_neg (List.cons_ne_nil _ _), List.append_nil]

theorem readStringEsc_spec (s : Stream) (b : Byte) (str : Atom) :
    (∃ c str' b' s', readStringEsc s b = .ok (str', b', s') ∧ s.text = c ++ s'.text
      ∧ lexPart tonumber (.escape b str) c = some ([], .string b' (str ++ str')))
    ∨ ∃ msg, readStringEsc s b = .error msg
      ∧ lex tonumber (.escape b str) s.text = ([], .string) := by
  unfold readStringEsc
  split
  · rename_i s1 hread
    rw [(Stream.read_none hread).1]
    exact Or.inr ⟨_, rfl, rfl⟩
  · rename_i ch s1 hread
    rw [Stream.read_some hread]
    cases hesc : escaped ch with
    | some e =>
        have hnext : (Mode.escape b str).next tonumber ch = some ([], .string b (str ++ [e])) := by
          rw [Mode.next, hesc]
        exact Or.inl ⟨[ch], [e], b, s1, rfl, rfl, lexPart_cons hnext rfl⟩
    | none =>
        by_cases hbang : ch = char '!'
        · have hnext : (Mode.escape b str).next tonumber ch = some ([], .bound str) := by
            rw [Mode.next, hesc]
            exact if_pos hbang
          dsimp only
          rw [if_pos hbang]
          split
          · rename_i s2 hread'
            rw [(Stream.read_none hread').1, lex_next, hnext]
            exact Or.inr ⟨_, rfl, rfl⟩
          · rename_i c s2 hread'
            rw [Stream.read_some hread']
            refine Or.inl ⟨[ch, c], [], c, s2, rfl, rfl, ?_⟩
            rw [List.append_nil]
            exact lexPart_cons hnext rfl
        · have hnext : (Mode.escape b str).next tonumber ch = none := by
            rw [Mode.next, hesc]
            exact if_neg hbang
          dsimp only
          rw [if_neg hbang, lex_next, hnext]
          exact Or.inr ⟨_, rfl, rfl⟩

theorem readString_spec (s : Stream) (b : Byte) (str : Atom) :
    (∃ c str' s', readStringFrom s b str = .ok (str', s') ∧ s.text = c ++ s'.text
      ∧ lexPart tonumber (.string b str) c = some ([.datum (stringDatum str')], .blank))
    ∨ ∃ msg, readStringFrom s b str = .error msg
      ∧ lex tonumber (.string b str) s.text = ([], .string) := by
  fun_induction readStringFrom s b str with
  | case1 s b str s1 hread =>
      rw [(Stream.read_none hread).1]
      exact Or.inr ⟨_, rfl, rfl⟩
  | case2 s b str s1 msg hesc hread =>
      rw [Stream.read_some hread, lex, if_pos rfl]
      rcases readStringEsc_spec tonumber s1 b str with ⟨_, _, _, _, hok, -⟩ | ⟨_, -, hlex⟩
      · rw [hesc] at hok
        cases hok
      · exact Or.inr ⟨msg, rfl, hlex⟩
  | case3 s b str s1 c b' s2 hesc hread ih =>
      have hnext : (Mode.string b str).next tonumber (char '^') = some ([], .escape b str) := by
        rw [Mode.next, if_pos rfl]
      rcases readStringEsc_spec tonumber s1 b str with
        ⟨ce, _, _, _, hok, htext, hpart⟩ | ⟨_, herr, -⟩
      · rw [hesc] at hok
        cases hok
        rw [Stream.read_some hread, htext]
        refine ih.imp ?_ ?_
        · rintro ⟨cs, str', s', hrun, htext', hpart'⟩
          refine ⟨char '^' :: (ce ++ cs), str', s', hrun, ?_, ?_⟩
          · rw [htext', List.cons_append, List.append_assoc]
          · exact lexPart_cons hnext (lexPart_trans hpart hpart')
        · rintro ⟨msg, hrun, hlex⟩
          exact ⟨msg, hrun, by rw [lex_next, hnext, Option.elim_some, lex_lexPart hpart, hlex]; rfl⟩
      · rw [hesc] at herr
        cases herr
  | case4 s b str ch s1 hread hcaret hne ih =>
      have hnext : (Mode.string b str).next tonumber ch = some ([], .string b (str ++ [ch])) := by
        rw [Mode.next, if_neg hcaret, if_pos hne]
      rw [Stream.read_some hread]
      refine ih.imp ?_ ?_
      · rintro ⟨cs, str', s', hrun, htext, hpart⟩
        exact ⟨ch :: cs, str', s', hrun, by rw [htext, List.cons_append], lexPart_cons hnext hpart⟩
      · rintro ⟨msg, hrun, hlex⟩
        exact ⟨msg, hrun, by rw [lex_next, hnext, Option.elim_some, hlex]; rfl⟩
  | case5 s b str ch s1 hread hcaret heq =>
      have hnext : (Mode.string b str).next tonumber ch
          = some ([.datum (stringDatum str)], .blank) := by
        rw [Mode.next, if_neg hcaret, if_neg heq]
      rw [Stream.read_some hread]
      exact Or.inl ⟨[ch], str, s1, rfl, rfl, lexPart_cons hnext rfl⟩

variable {tonumber}

/-! ## Tokens -/

/-- What is kept of a word in front of this text. -/
def keptWord (w : Atom) (cs : List Byte) : Atom := if cs = [] then w.take 1 else w

theorem keptWord_cons (w : Atom) (c : Byte) (cs : List Byte) : keptWord w (c :: cs) = w :=
  if_neg (List.cons_ne_nil _ _)

/-- What `next_token` returns for a text, and which part of the text it takes. -/
inductive NextToken (tonumber : Atom → Option (BitVec 64)) (cs : List Byte) :
    Except String (Option Tok × Stream) → Prop where
  | token {c : List Byte} {tok : Tok} {s : Stream} : cs = c ++ s.text →
      lexPart tonumber .blank c = some ([tok.token], .blank) →
      NextToken tonumber cs (.ok (some tok, s))
  | word {c : List Byte} {w : Atom} {tok : Tok} {s : Stream} : cs = c ++ s.text →
      lexPart tonumber .blank c = some ([], .word w) → Stopped s.text →
      tok.token = .datum (wordDatum tonumber (keptWord w s.text)) →
      NextToken tonumber cs (.ok (some tok, s))
  | nothing {s : Stream} {e : Ending} : lex tonumber .blank cs = ([], e) → e ≠ .string →
      s.text = [] → NextToken tonumber cs (.ok (none, s))
  | error {msg : String} : lex tonumber .blank cs = ([], .string) →
      NextToken tonumber cs (.error msg)

/-- White space and comments in front of a text. -/
theorem NextToken.gap {gap cs : List Byte} {r : Except String (Option Tok × Stream)}
    (hgap : lexPart tonumber .blank gap = some ([], .blank)) (h : NextToken tonumber cs r) :
    NextToken tonumber (gap ++ cs) r := by
  cases h with
  | token htext hpart =>
      exact .token (by rw [htext, List.append_assoc]) (lexPart_trans hgap hpart)
  | word htext hpart hstop htok =>
      exact .word (by rw [htext, List.append_assoc]) (lexPart_trans hgap hpart) hstop htok
  | nothing hlex he htext => exact .nothing (by rw [lex_lexPart hgap, hlex]; rfl) he htext
  | error hlex => exact .error (by rw [lex_lexPart hgap, hlex]; rfl)

theorem token_wordNode (str : Atom) (line : Nat) :
    Tok.token (.node (wordNode tonumber str line)) = .datum (wordDatum tonumber str) := by
  unfold wordNode wordDatum
  cases tonumber str <;> rfl

variable (tonumber) in
/-- **The next token** takes the characters of one token, and of a word in
whose middle the text ends it keeps the first character. -/
theorem nextToken_spec (s : Stream) : NextToken tonumber s.text (nextToken tonumber s) := by
  fun_induction nextToken tonumber s with
  | case1 s s1 hspace =>
      obtain ⟨hpart, htext⟩ := readSpace_none tonumber hspace
      exact .nothing (lex_of_lexPart hpart) nofun htext
  | case2 s s1 hspace ih =>
      obtain ⟨-, gap, htext, hgap⟩ := readSpace_some tonumber hspace
      have hstart : Mode.start (char ';') = ([], .comment) := rfl
      rw [htext]
      rcases readComment_spec tonumber s1 with ⟨c, htext', hpart⟩ | ⟨hpart, htext'⟩
      · have hcomment : lexPart tonumber .blank (char ';' :: c) = some ([], .blank) :=
          lexPart_start hstart hpart
        rw [htext', ← List.cons_append]
        exact (ih.gap hcomment).gap hgap
      · have hcomment : lexPart tonumber .blank (char ';' :: s1.text) = some ([], .comment) :=
          lexPart_start hstart hpart
        have hlex := lex_of_lexPart (lexPart_trans hgap hcomment)
        rw [htext'] at ih
        generalize nextToken tonumber (readComment s1) = r at ih ⊢
        cases ih with
        | token htext hpart =>
            rw [(List.append_eq_nil_iff.mp htext.symm).1] at hpart
            cases hpart
        | word htext hpart =>
            rw [(List.append_eq_nil_iff.mp htext.symm).1] at hpart
            cases hpart
        | nothing _ _ htext => exact .nothing hlex nofun htext
        | error hlex' => cases hlex'
  | case3 s s1 hspace _ =>
      obtain ⟨-, gap, htext, hgap⟩ := readSpace_some tonumber hspace
      have hstart : Mode.start (char '"') = ([], .string (char '"') []) := rfl
      rw [htext]
      refine NextToken.gap hgap ?_
      rcases readString_spec tonumber s1 (char '"') [] with
        ⟨c, str, s2, hrun, htext', hpart⟩ | ⟨msg, hrun, hlex⟩
      · rw [hrun, htext', ← List.cons_append]
        exact .token rfl (lexPart_start hstart hpart)
      · rw [hrun]
        exact .error (by rw [lex_next]; exact hlex)
  | case4 s ch s1 hspace hcomment hstring hspecial =>
      obtain ⟨hc, gap, htext, hgap⟩ := readSpace_some tonumber hspace
      have hstart : Mode.start ch = ([.char ch], .blank) := by
        rw [Mode.start, hc, if_neg Bool.false_ne_true, if_neg hcomment, if_neg hstring,
          if_pos hspecial]
      rw [htext]
      exact NextToken.gap hgap (.token (List.singleton_append).symm
        (lexPart_start hstart rfl))
  | case5 s ch s1 hspace hcomment hstring hspecial str s2 hatom =>
      obtain ⟨hc, gap, htext, hgap⟩ := readSpace_some tonumber hspace
      have hstart : Mode.start ch = ([], .word [ch]) := by
        rw [Mode.start, hc, if_neg Bool.false_ne_true, if_neg hcomment, if_neg hstring,
          if_neg hspecial]
      obtain ⟨w, htext', hstop, hword, rfl⟩ := readAtom_spec tonumber hatom
      rw [htext, htext', ← List.cons_append]
      refine NextToken.gap hgap (.word rfl (lexPart_start hstart (hword [ch])) hstop ?_)
      rw [token_wordNode, keptWord]
      split_ifs <;> rfl

/-! ## Texts that do not end in an atom -/

/-- The text does not end in the middle of an atom. -/
def Ends (cs : List Byte) : Prop := ∀ c, cs.getLast? = some c → isOrdinary c = false

theorem Ends.suffix {cs cs' : List Byte} (h : Ends cs) (hsuf : cs' <:+ cs) : Ends cs' := by
  intro c hc
  obtain ⟨ds, rfl⟩ := hsuf
  exact h c (by rw [List.getLast?_append, hc]; rfl)

theorem start_word {ch : Byte} {w : Atom} (h : (Mode.start ch).2 = .word w) :
    isOrdinary ch = true := by
  unfold Mode.start at h
  split_ifs at h with hspace hcomment hstring hspecial
  simpa [isOrdinary, hspace, hcomment, hstring] using hspecial

/-- One gets into a word, and on in it, by a character of an atom. -/
theorem next_word {ch : Byte} {w : Atom} (h : m.next tonumber ch = some (ts, .word w)) :
    isOrdinary ch = true := by
  cases m with
  | blank => exact start_word (congrArg Prod.snd (Option.some.inj h))
  | comment =>
      rw [Mode.next] at h
      split_ifs at h <;> cases h
  | word str =>
      rw [Mode.next] at h
      split_ifs at h with hord
      · exact hord
      · exact start_word (congrArg Prod.snd (Option.some.inj h))
  | string b str =>
      rw [Mode.next] at h
      split_ifs at h <;> cases h
  | escape b str =>
      rw [Mode.next] at h
      split at h
      · cases h
      · split_ifs at h
        cases h
  | bound str => cases h

theorem Ends.not_word {c : List Byte} {w : Atom} (hends : Ends c) :
    lexPart tonumber .blank c ≠ some (ts, .word w) := by
  intro h
  rcases List.eq_nil_or_concat c with rfl | ⟨c, ch, rfl⟩
  · cases h
  · rw [List.concat_eq_append] at hends h
    have hord : isOrdinary ch = false := hends ch List.getLast?_concat
    rw [lexPart_append] at h
    obtain ⟨⟨us, m1⟩, -, h⟩ := Option.bind_eq_some_iff.mp h
    obtain ⟨⟨vs, m2⟩, hlast, heq⟩ := Option.map_eq_some_iff.mp h
    rw [lexPart] at hlast
    obtain ⟨⟨ws, m3⟩, hnext, hlast⟩ := Option.bind_eq_some_iff.mp hlast
    cases hlast
    cases heq
    rw [next_word hnext] at hord
    cases hord

/-- What `next_token` returns for a text, and the tokens and the ending of the
text. -/
inductive FirstToken (tonumber : Atom → Option (BitVec 64)) (cs : List Byte) :
    Except String (Option Tok × Stream) → List Token × Ending → Prop where
  | token {tok : Tok} {s : Stream} {ts : List Token} {e : Ending} : s.text <:+ cs →
      lex tonumber .blank s.text = (ts, e) →
      FirstToken tonumber cs (.ok (some tok, s)) (tok.token :: ts, e)
  | nothing {s : Stream} {e : Ending} : e ≠ .string → s.text = [] →
      FirstToken tonumber cs (.ok (none, s)) ([], e)
  | error {msg : String} : FirstToken tonumber cs (.error msg) ([], .string)

variable (tonumber) in
/-- The next token is the first one of the text. -/
theorem nextToken_lex (s : Stream) (hends : Ends s.text) :
    FirstToken tonumber s.text (nextToken tonumber s) (lex tonumber .blank s.text) := by
  have hspec := nextToken_spec tonumber s
  generalize nextToken tonumber s = r at hspec ⊢
  cases hspec with
  | token htext hpart =>
      rw [htext, lex_lexPart hpart]
      exact .token (List.suffix_append ..) rfl
  | @word c w tok s' htext hpart hstop htok =>
      have hrest : s'.text ≠ [] := by
        intro hnil
        rw [hnil, List.append_nil] at htext
        exact hends.not_word (htext ▸ hpart)
      have hkept : keptWord w s'.text = w := if_neg hrest
      rw [hkept] at htok
      rw [htext, lex_lexPart hpart, lex_stopped hstop, ← htok]
      exact .token (List.suffix_append ..) rfl
  | nothing hlex he htext =>
      rw [hlex]
      exact .nothing he htext
  | error hlex =>
      rw [hlex]
      exact .error

end Saurus
