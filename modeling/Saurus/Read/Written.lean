import Saurus.Read.Taken

/-!
# Printing and reading

The texts that an expression may be printed as: words, strings with `^` before
`"` and `^`, lists in brackets, and prefixes, with white space and comments
between them. What is printed in brackets is read as it was, whatever is
behind it (`read_written`).
-/

namespace Saurus

variable {tonumber : Atom → Option (BitVec 64)}

/-! ## Texts of expressions -/

/-- Characters of an atom. -/
def IsWord (w : Atom) : Prop := w ≠ [] ∧ ∀ ch ∈ w, isOrdinary ch = true

instance (w : Atom) : Decidable (IsWord w) := inferInstanceAs (Decidable (_ ∧ _))

/-- White space, and comments with the end of their lines. -/
inductive Gap : List Byte → Prop where
  | nil : Gap []
  | space {ch : Byte} {cs : List Byte} : isSpace ch = true → Gap cs → Gap (ch :: cs)
  | comment {body cs : List Byte} : char '\n' ∉ body → Gap cs →
      Gap (char ';' :: (body ++ char '\n' :: cs))

/-- The content of a string, with `^` before `"` and `^`. -/
def escape : Atom → List Byte
  | [] => []
  | ch :: str => if ch = char '"' ∨ ch = char '^' then char '^' :: ch :: escape str
      else ch :: escape str

mutual

/-- The texts that an expression is printed as. -/
inductive Written (tonumber : Atom → Option (BitVec 64)) : Datum → List Byte → Prop where
  | number {n : BitVec 64} {w : Atom} : IsWord w → tonumber w = some n →
      Written tonumber (.number n) w
  | symbol {a : Atom} : IsWord a → tonumber a = none → Written tonumber (.symbol a) a
  | string (str : Atom) : Written tonumber (stringDatum str)
      (char '"' :: (escape str ++ [char '"']))
  | prefixed {ch : Byte} {name : Atom} {d : Datum} {gap p : List Byte} :
      prefixName ch = some name → Gap gap → Written tonumber d p →
      Written tonumber (.list [.symbol name, d]) (ch :: (gap ++ p))
  | bracket {o c : Byte} {head : List Atom} {ds : List Datum} {p : List Byte} :
      bracketHead o = some head → Pairs o c → WrittenAll tonumber ds p →
      Written tonumber (.list (head.map .symbol ++ ds)) (o :: (p ++ [c]))

/-- The texts of what is in brackets. Behind an expression there is white space
or a comment, or something else that a word does not go on into. -/
inductive WrittenAll (tonumber : Atom → Option (BitVec 64)) : List Datum → List Byte → Prop where
  | nil {gap : List Byte} : Gap gap → WrittenAll tonumber [] gap
  | cons {d : Datum} {ds : List Datum} {gap p ps : List Byte} : Gap gap → Written tonumber d p →
      Stopped ps → WrittenAll tonumber ds ps → WrittenAll tonumber (d :: ds) (gap ++ (p ++ ps))

end

/-- The texts that a list is printed as in brackets. -/
inductive WrittenList (tonumber : Atom → Option (BitVec 64)) : Datum → List Byte → Prop where
  | mk {o c : Byte} {head : List Atom} {ds : List Datum} {p : List Byte} :
      bracketHead o = some head → Pairs o c → WrittenAll tonumber ds p →
      WrittenList tonumber (.list (head.map .symbol ++ ds)) (o :: (p ++ [c]))

/-- What separates two expressions ends a word. -/
theorem Gap.stopped {gap : List Byte} (h : Gap gap) (hne : gap ≠ []) (cs : List Byte) :
    Stopped (gap ++ cs) := by
  cases h with
  | nil => exact absurd rfl hne
  | space hspace =>
      refine stopped_cons ?_ _
      rw [isOrdinary, hspace, Bool.not_true, Bool.and_false]
  | comment => exact stopped_cons rfl _

/-- What can be written: numbers that have a word, symbols that are words and no
numbers, strings, and lists. -/
inductive Writable (tonumber : Atom → Option (BitVec 64)) : Datum → Prop where
  | number {n : BitVec 64} {w : Atom} : IsWord w → tonumber w = some n →
      Writable tonumber (.number n)
  | symbol {a : Atom} : IsWord a → tonumber a = none → Writable tonumber (.symbol a)
  | string (str : Atom) : Writable tonumber (stringDatum str)
  | list {ds : List Datum} : (∀ d ∈ ds, Writable tonumber d) → Writable tonumber (.list ds)

theorem exists_writtenAll {ds : List Datum} (h : ∀ d ∈ ds, ∃ p, Written tonumber d p) :
    ∃ p, WrittenAll tonumber ds p ∧ Stopped p := by
  induction ds with
  | nil =>
      exact ⟨[], .nil .nil, stopped_nil⟩
  | cons d ds ih =>
      obtain ⟨p, hp⟩ := h d List.mem_cons_self
      obtain ⟨ps, hps, hstop⟩ := ih fun d hd => h d (List.mem_cons_of_mem _ hd)
      have hgap : Gap [char ' '] := .space rfl .nil
      exact ⟨[char ' '] ++ (p ++ ps), .cons hgap hp hstop hps,
        hgap.stopped (List.cons_ne_nil _ _) _⟩

theorem exists_writtenList {ds : List Datum} (h : ∀ d ∈ ds, ∃ p, Written tonumber d p) :
    ∃ p, WrittenList tonumber (.list ds) p := by
  obtain ⟨p, hp, -⟩ := exists_writtenAll h
  have hround : Pairs (char '(') (char ')') := Or.inl ⟨rfl, rfl⟩
  have hhead : bracketHead (char '(') = some [] := rfl
  exact ⟨char '(' :: (p ++ [char ')']), .mk hhead hround hp⟩

theorem WrittenList.written {d : Datum} {p : List Byte} (h : WrittenList tonumber d p) :
    Written tonumber d p := by
  cases h with
  | mk hhead hpairs hp => exact .bracket hhead hpairs hp

/-- Every such expression has a text. -/
theorem Writable.exists_written {d : Datum} (h : Writable tonumber d) :
    ∃ p, Written tonumber d p := by
  induction h with
  | number hw hn => exact ⟨_, .number hw hn⟩
  | symbol hw hn => exact ⟨_, .symbol hw hn⟩
  | string str => exact ⟨_, .string str⟩
  | list _ ih =>
      obtain ⟨p, hp⟩ := exists_writtenList ih
      exact ⟨p, hp.written⟩

/-! ## The loops over characters -/

section Loops

variable {s s1 : Stream} {ch : Byte} {cs rest : List Byte}

theorem read_cons (h : s.text = ch :: cs) : ∃ s1, s.read = (some ch, s1) ∧ s1.text = cs := by
  obtain ⟨hhead, htail⟩ := s.read_text
  rw [h] at hhead htail
  exact ⟨s.read.2, Prod.ext hhead rfl, htail⟩

theorem readSpace_eq (h : s.read = (some ch, s1)) :
    readSpace s = if isSpace ch then readSpace s1 else (some ch, s1) := by
  rw [readSpace]
  split
  · rename_i hread
    cases h.symm.trans hread
  · rename_i hread
    cases h.symm.trans hread
    rfl

theorem readComment_eq (h : s.read = (some ch, s1)) :
    readComment s = if ch = char '\n' then s1 else readComment s1 := by
  rw [readComment]
  split
  · rename_i hread
    cases h.symm.trans hread
  · rename_i hread
    cases h.symm.trans hread
    rfl

theorem readAtom_eq (h : s.read = (some ch, s1)) (str : Atom) :
    readAtom s str
      = if isOrdinary ch then readAtom s1 (str ++ [ch]) else (some str, s1.unread ch) := by
  rw [readAtom]
  split
  · rename_i hread
    cases h.symm.trans hread
  · rename_i hread
    cases h.symm.trans hread
    rfl

theorem readStringFrom_eq (h : s.read = (some ch, s1)) (hch : ch ≠ char '^') (b : Byte)
    (str : Atom) : readStringFrom s b str
      = if ch ≠ b then readStringFrom s1 b (str ++ [ch]) else .ok (str, s1) := by
  rw [readStringFrom]
  split
  · rename_i hread
    cases h.symm.trans hread
  · rename_i hread
    cases h.symm.trans hread
    rw [if_neg hch]

theorem readStringFrom_esc {s2 : Stream} {b b' : Byte} {c : Atom}
    (h : s.read = (some (char '^'), s1)) (hesc : readStringEsc s1 b = .ok (c, b', s2))
    (str : Atom) : readStringFrom s b str = readStringFrom s2 b' (str ++ c) := by
  rw [readStringFrom]
  split
  · rename_i hread
    cases h.symm.trans hread
  · rename_i hread
    cases h.symm.trans hread
    rw [if_pos rfl]
    split
    · rename_i herr
      cases hesc.symm.trans herr
    · rename_i hok
      cases hesc.symm.trans hok
      rfl

/-- A comment is read with the end of its line. -/
theorem readComment_body {body : List Byte} (hbody : char '\n' ∉ body)
    (h : s.text = body ++ char '\n' :: cs) : (readComment s).text = cs := by
  induction body generalizing s with
  | nil =>
      obtain ⟨s1, hread, htext⟩ := read_cons h
      rw [readComment_eq hread, if_pos rfl, htext]
  | cons ch body ih =>
      rw [List.mem_cons, not_or] at hbody
      obtain ⟨s1, hread, htext⟩ := read_cons h
      rw [readComment_eq hread, if_neg (Ne.symm hbody.1)]
      exact ih hbody.2 htext

/-- An atom is read up to the first character that is none of it. -/
theorem readAtom_word {w : Atom} (hw : ∀ ch ∈ w, isOrdinary ch = true)
    (hch : isOrdinary ch = false) (h : s.text = w ++ ch :: cs) (str : Atom) :
    ∃ s', readAtom s str = (some (str ++ w), s') ∧ s'.text = ch :: cs := by
  induction w generalizing s str with
  | nil =>
      obtain ⟨s1, hread, htext⟩ := read_cons h
      refine ⟨s1.unread ch, ?_, ?_⟩
      · rw [readAtom_eq hread, hch, if_neg Bool.false_ne_true, List.append_nil]
      · rw [Stream.text_unread ch (Stream.cache_read hread), htext]
  | cons c w ih =>
      obtain ⟨s1, hread, htext⟩ := read_cons h
      obtain ⟨s', hrun, htext'⟩ := ih (fun ch hch => hw ch (List.mem_cons_of_mem _ hch)) htext
        (str ++ [c])
      refine ⟨s', ?_, htext'⟩
      rw [readAtom_eq hread, if_pos (hw c List.mem_cons_self), hrun, List.append_assoc]
      rfl

/-- What `escape` has written is read as it was. -/
theorem readString_escape (str str' : Atom) (h : s.text = escape str ++ char '"' :: rest) :
    ∃ s', readStringFrom s (char '"') str' = .ok (str' ++ str, s') ∧ s'.text = rest := by
  induction str generalizing s str' with
  | nil =>
      obtain ⟨s1, hread, htext⟩ := read_cons h
      refine ⟨s1, ?_, htext⟩
      rw [readStringFrom_eq hread (by decide), if_neg (not_not_intro rfl), List.append_nil]
  | cons ch str ih =>
      rw [escape] at h
      split_ifs at h with hesc
      · obtain ⟨s1, hread, htext⟩ := read_cons h
        obtain ⟨s2, hread', htext'⟩ := read_cons htext
        have hrun : readStringEsc s1 (char '"') = .ok ([ch], char '"', s2) := by
          rw [readStringEsc, hread']
          rcases hesc with rfl | rfl <;> rfl
        obtain ⟨s', hrest, htext''⟩ := ih (str' ++ [ch]) htext'
        refine ⟨s', ?_, htext''⟩
        rw [readStringFrom_esc hread hrun, hrest, List.append_assoc]
        rfl
      · rw [not_or] at hesc
        obtain ⟨s1, hread, htext⟩ := read_cons h
        obtain ⟨s', hrest, htext'⟩ := ih (str' ++ [ch]) htext
        refine ⟨s', ?_, htext'⟩
        rw [readStringFrom_eq hread hesc.2, if_pos hesc.1, hrest, List.append_assoc]
        rfl

end Loops

/-! ## The next token -/

variable {s s1 : Stream} {ch : Byte} {cs rest : List Byte}

theorem nextToken_eq (h : readSpace s = (some ch, s1)) :
    nextToken tonumber s = if ch = char ';' then nextToken tonumber (readComment s1)
      else if ch = char '"' then do
        let (str, s') ← readStringFrom s1 (char '"') []
        .ok (some (.node (stringNode str s'.line)), s')
      else if specialChars.contains ch then .ok (some (.char ch), s1)
      else
        let (str, s') := readAtom s1 []
        .ok (some (.node (wordNode tonumber (ch :: str.getD []) s'.line)), s') := by
  rw [nextToken]
  split
  · rename_i hread
    cases h.symm.trans hread
  · rename_i hread
    cases h.symm.trans hread
    rfl

theorem nextToken_congr (h : readSpace s = readSpace s1) :
    nextToken tonumber s = nextToken tonumber s1 := by
  rcases hs : readSpace s with ⟨_ | ch, s2⟩
  · have hnone : ∀ {s : Stream}, readSpace s = (none, s2) →
        nextToken tonumber s = .ok (none, s2) := by
      intro s hs
      rw [nextToken]
      split
      · rename_i hread
        cases hs.symm.trans hread
        rfl
      · rename_i hread
        cases hs.symm.trans hread
    rw [hnone hs, hnone (h ▸ hs)]
  · have hs1 : readSpace s1 = (some ch, s2) := h ▸ hs
    rw [nextToken_eq hs, nextToken_eq hs1]

/-- White space and comments are left out. -/
theorem Gap.nextToken {gap : List Byte} (h : Gap gap) (hs : s.text = gap ++ cs) :
    ∃ s1, s1.text = cs ∧ nextToken tonumber s = nextToken tonumber s1 := by
  induction h generalizing s with
  | nil => exact ⟨s, hs, rfl⟩
  | space hspace _ ih =>
      obtain ⟨s1, hread, htext⟩ := read_cons hs
      obtain ⟨s2, htext', hnext⟩ := ih htext
      refine ⟨s2, htext', ?_⟩
      rw [← hnext]
      exact nextToken_congr (by rw [readSpace_eq hread, if_pos hspace])
  | @comment body gap hbody _ ih =>
      obtain ⟨s1, hread, htext⟩ := read_cons hs
      have hrest : (readComment s1).text = gap ++ cs := by
        refine readComment_body hbody ?_
        rw [htext, List.append_eq, List.append_assoc]
        rfl
      obtain ⟨s2, htext', hnext⟩ := ih hrest
      refine ⟨s2, htext', ?_⟩
      have hspace : readSpace s = (some (char ';'), s1) := by
        rw [readSpace_eq hread]
        rfl
      rw [nextToken_eq hspace, if_pos rfl, hnext]

theorem special_cases (h : specialChars.contains ch = true) :
    isSpace ch = false ∧ ch ≠ char ';' ∧ ch ≠ char '"' := by
  have hmem : ch ∈ specialChars := List.contains_iff_mem.mp h
  simp only [specialChars, atom, List.map_cons, List.map_nil, List.mem_cons, List.not_mem_nil,
    or_false] at hmem
  rcases hmem with rfl | rfl | rfl | rfl | rfl | rfl | rfl | rfl | rfl <;> decide

theorem nextToken_char (hch : specialChars.contains ch = true) (hs : s.text = ch :: rest) :
    ∃ s', nextToken tonumber s = .ok (some (.char ch), s') ∧ s'.text = rest := by
  obtain ⟨hspace, hcomment, hstring⟩ := special_cases hch
  obtain ⟨s1, hread, htext⟩ := read_cons hs
  refine ⟨s1, ?_, htext⟩
  have hrun : readSpace s = (some ch, s1) := by
    rw [readSpace_eq hread, hspace, if_neg Bool.false_ne_true]
  rw [nextToken_eq hrun, if_neg hcomment, if_neg hstring, if_pos hch]

/-- A word begins with a character of an atom, and the rest of it is read as one. -/
theorem nextToken_ordinary (hch : isOrdinary ch = true) (h : s.read = (some ch, s1)) :
    nextToken tonumber s
      = .ok (some (.node (wordNode tonumber (ch :: (readAtom s1 []).1.getD [])
          (readAtom s1 []).2.line)), (readAtom s1 []).2) := by
  simp only [isOrdinary, Bool.and_eq_true, Bool.not_eq_true', Bool.or_eq_false_iff,
    decide_eq_false_iff_not] at hch
  obtain ⟨⟨⟨hspecial, hcomment⟩, hstring⟩, hspace⟩ := hch
  have hrun : readSpace s = (some ch, s1) := by
    rw [readSpace_eq h, hspace, if_neg Bool.false_ne_true]
  rw [nextToken_eq hrun, if_neg hcomment, if_neg hstring, hspecial, if_neg Bool.false_ne_true]

theorem nextToken_written_word {w : Atom} (hw : IsWord w) (hch : isOrdinary ch = false)
    (hs : s.text = w ++ ch :: cs) :
    ∃ line s', nextToken tonumber s = .ok (some (.node (wordNode tonumber w line)), s')
      ∧ s'.text = ch :: cs := by
  obtain ⟨c, w, rfl⟩ := List.exists_cons_of_ne_nil hw.1
  obtain ⟨s1, hread, htext⟩ := read_cons hs
  obtain ⟨s', hatom, htext'⟩ := readAtom_word (fun ch hch => hw.2 ch (List.mem_cons_of_mem _ hch))
    hch htext []
  refine ⟨s'.line, s', ?_, htext'⟩
  rw [nextToken_ordinary (hw.2 c List.mem_cons_self) hread, hatom]
  rfl

theorem nextToken_written_string (str : Atom)
    (hs : s.text = char '"' :: (escape str ++ char '"' :: rest)) :
    ∃ line s', nextToken tonumber s = .ok (some (.node (stringNode str line)), s')
      ∧ s'.text = rest := by
  obtain ⟨s1, hread, htext⟩ := read_cons hs
  obtain ⟨s', hstring, htext'⟩ := readString_escape str [] htext
  refine ⟨s'.line, s', ?_, htext'⟩
  have hrun : readSpace s = (some (char '"'), s1) := by
    rw [readSpace_eq hread]
    rfl
  rw [nextToken_eq hrun, if_neg (by decide), if_pos rfl, hstring]
  rfl

/-! ## Tokens of what is printed -/

variable {ts : List Token} {d : Datum} {ds : List Datum} {p : List Byte} {s' : Stream}

theorem prefixName_special {name : Atom} (h : prefixName ch = some name) :
    specialChars.contains ch = true := by
  unfold prefixName at h
  split_ifs at h with hquote hunquote hunref
  · rw [hquote]
    rfl
  · rw [hunquote]
    rfl
  · rw [hunref]
    rfl

theorem bracketHead_special {head : List Atom} (h : bracketHead ch = some head) :
    specialChars.contains ch = true := by
  unfold bracketHead at h
  split_ifs at h with hvector hmap hlist
  · rw [hvector]
    rfl
  · rw [hmap]
    rfl
  · rw [hlist]
    rfl

theorem closes_special (h : closes ch = true) : specialChars.contains ch = true := by
  rcases closes_cases h with rfl | rfl | rfl <;> rfl

theorem special_ordinary (h : specialChars.contains ch = true) : isOrdinary ch = false := by
  rw [isOrdinary, h]
  rfl

variable (tonumber) in
theorem Takes.char (hch : specialChars.contains ch = true) (hs : s.text = ch :: rest) :
    ∃ s', Takes tonumber s [.char ch] s' ∧ s'.text = rest := by
  obtain ⟨s', hnext, htext⟩ := nextToken_char hch hs
  exact ⟨s', .cons hnext (.nil s'), htext⟩

/-- Tokens behind white space and comments. -/
theorem Takes.gap {gap : List Byte} (hgap : Gap gap) (hs : s.text = gap ++ cs) (hts : ts ≠ [])
    (h : ∀ s1 : Stream, s1.text = cs → ∃ s', Takes tonumber s1 ts s' ∧ s'.text = rest) :
    ∃ s', Takes tonumber s ts s' ∧ s'.text = rest := by
  obtain ⟨s1, htext, hnext⟩ : ∃ s1 : Stream, s1.text = cs
      ∧ nextToken tonumber s = nextToken tonumber s1 := hgap.nextToken hs
  obtain ⟨s', htakes, hrest⟩ := h s1 htext
  refine ⟨s', ?_, hrest⟩
  obtain ⟨t, ts, rfl⟩ := List.exists_cons_of_ne_nil hts
  obtain ⟨tok, s2, hnext', rfl, htail⟩ := htakes.head
  exact .cons (hnext.trans hnext') htail

theorem Forms.ne_nil {closed : Byte → Byte → Prop} (h : Forms closed ts (d :: ds)) : ts ≠ [] := by
  rintro rfl
  cases h

/-- What is printed gives the tokens of the expression, in front of anything
that ends a word. -/
def GivesForm (tonumber : Atom → Option (BitVec 64)) (d : Datum) (p : List Byte) : Prop :=
  ∃ ts, Forms Pairs ts [d] ∧ ∀ (s : Stream) ch cs, isOrdinary ch = false → s.text = p ++ ch :: cs →
    ∃ s', Takes tonumber s ts s' ∧ s'.text = ch :: cs

/-- What is printed in brackets gives the tokens of the expressions and of the
closing bracket. -/
def GivesForms (tonumber : Atom → Option (BitVec 64)) (ds : List Datum) (p : List Byte) : Prop :=
  ∃ ts, Forms Pairs ts ds ∧ ∀ (s : Stream) c rest, closes c = true → s.text = p ++ c :: rest →
    ∃ s', Takes tonumber s (ts ++ [.char c]) s' ∧ s'.text = rest

/-- A list in brackets gives its tokens, whatever is behind it. -/
theorem GivesForms.bracket {o c : Byte} {head : List Atom} (hhead : bracketHead o = some head)
    (hpairs : Pairs o c) (h : GivesForms tonumber ds p) :
    ∃ ts, Forms Pairs ts [.list (head.map .symbol ++ ds)]
      ∧ ∀ (s : Stream) rest, s.text = o :: (p ++ [c]) ++ rest →
        ∃ s', Takes tonumber s ts s' ∧ s'.text = rest := by
  obtain ⟨ts, hforms, htakes⟩ := h
  refine ⟨.char o :: (ts ++ .char c :: []), .bracket hhead hpairs hforms .nil, fun s rest hs => ?_⟩
  rw [List.cons_append, List.append_assoc] at hs
  obtain ⟨s1, hopen, htext⟩ := Takes.char tonumber (bracketHead_special hhead) hs
  obtain ⟨s', hin, hrest⟩ := htakes s1 c rest hpairs.closes htext
  exact ⟨s', hopen.append hin, hrest⟩

theorem givesForm_datum (h : ∀ (s : Stream) ch cs, isOrdinary ch = false → s.text = p ++ ch :: cs →
    ∃ e s', nextToken tonumber s = .ok (some (.node e), s') ∧ e.datum = d ∧ s'.text = ch :: cs) :
    GivesForm tonumber d p := by
  refine ⟨[.datum d], .datum d .nil, fun s ch cs hch hs => ?_⟩
  obtain ⟨e, s', hnext, rfl, htext⟩ := h s ch cs hch hs
  exact ⟨s', .cons hnext (.nil s'), htext⟩

theorem givesForm_word {w : Atom} (hw : IsWord w) :
    GivesForm tonumber (wordDatum tonumber w) w := by
  refine givesForm_datum fun s ch cs hch hs => ?_
  obtain ⟨line, s', hnext, htext⟩ := nextToken_written_word hw hch hs
  exact ⟨_, s', hnext, Token.datum.inj (token_wordNode w line), htext⟩

theorem givesForm_prefixed {name : Atom} {gap : List Byte} (hname : prefixName ch = some name)
    (hgap : Gap gap) (h : GivesForm tonumber d p) :
    GivesForm tonumber (.list [.symbol name, d]) (ch :: (gap ++ p)) := by
  obtain ⟨ts, hforms, htakes⟩ := h
  refine ⟨.char ch :: ts, .prefixed hname hforms, fun s c cs hc hs => ?_⟩
  obtain ⟨s1, hprefix, htext⟩ := Takes.char tonumber (prefixName_special hname) hs
  rw [List.append_eq, List.append_assoc] at htext
  obtain ⟨s', hrest, htext'⟩ := Takes.gap hgap htext hforms.ne_nil fun s2 hs2 =>
    htakes s2 c cs hc hs2
  exact ⟨s', hprefix.append hrest, htext'⟩

theorem givesForms_cons {gap ps : List Byte} (hgap : Gap gap) (h : GivesForm tonumber d p)
    (hstop : Stopped ps) (hds : GivesForms tonumber ds ps) :
    GivesForms tonumber (d :: ds) (gap ++ (p ++ ps)) := by
  obtain ⟨ts, hforms, htakes⟩ := h
  obtain ⟨us, hforms', htakes'⟩ := hds
  refine ⟨ts ++ us, hforms.append hforms', fun s c rest hc hs => ?_⟩
  obtain ⟨ch, cs, hcs, hch⟩ : ∃ ch cs, ps ++ c :: rest = ch :: cs ∧ isOrdinary ch = false := by
    cases ps with
    | nil => exact ⟨c, rest, rfl, special_ordinary (closes_special hc)⟩
    | cons ch ps => exact ⟨ch, ps ++ c :: rest, rfl, hstop ch rfl⟩
  rw [List.append_assoc, List.append_assoc] at hs
  rw [List.append_assoc]
  refine Takes.gap hgap hs (by simp) fun s1 hs1 => ?_
  rw [hcs] at hs1
  obtain ⟨s2, hfirst, htext⟩ := htakes s1 ch cs hch hs1
  obtain ⟨s', hrest, htext'⟩ := htakes' s2 c rest hc (htext.trans hcs.symm)
  exact ⟨s', hfirst.append hrest, htext'⟩

mutual

theorem Written.gives {d : Datum} {p : List Byte} :
    Written tonumber d p → GivesForm tonumber d p
  | .number hw hn => by
      have hd : GivesForm tonumber (wordDatum tonumber _) _ := givesForm_word hw
      rwa [wordDatum, hn] at hd
  | .symbol hw hn => by
      have hd : GivesForm tonumber (wordDatum tonumber _) _ := givesForm_word hw
      rwa [wordDatum, hn] at hd
  | .string str => by
      refine givesForm_datum fun s ch cs _ hs => ?_
      rw [List.cons_append, List.append_assoc] at hs
      obtain ⟨line, s', hnext, htext⟩ := nextToken_written_string str hs
      exact ⟨_, s', hnext, rfl, htext⟩
  | .prefixed hname hgap h => givesForm_prefixed hname hgap h.gives
  | .bracket hhead hpairs h => by
      obtain ⟨ts, hforms, htakes⟩ := h.gives.bracket hhead hpairs
      exact ⟨ts, hforms, fun s ch cs _ hs => htakes s (ch :: cs) hs⟩

theorem WrittenAll.gives {ds : List Datum} {p : List Byte} :
    WrittenAll tonumber ds p → GivesForms tonumber ds p
  | .nil hgap => by
      refine ⟨[], .nil, fun s c rest hc hs => ?_⟩
      exact Takes.gap hgap hs (List.cons_ne_nil _ _) fun s1 hs1 =>
        Takes.char tonumber (closes_special hc) hs1
  | .cons hgap h hstop hds => givesForms_cons hgap h.gives hstop hds.gives

end

/-- **Reading what was printed.** The text of a list in brackets is read as the
list, and the stream is left behind its last bracket, whatever is there. -/
theorem read_written (h : WrittenList tonumber d p) (hs : s.text = p ++ rest) :
    ∃ x s', readFrom tonumber s = .ok (some x, s') ∧ x.datum = d ∧ s'.text = rest := by
  cases h with
  | mk hhead hpairs h =>
      obtain ⟨ts, hforms, htakes⟩ := h.gives.bracket hhead hpairs
      obtain ⟨s', htakes, htext⟩ := htakes s rest hs
      obtain ⟨x, hread, hx⟩ := readFrom_forms htakes (hforms.mono fun _ _ => Pairs.closes)
      exact ⟨x, s', hread, hx, htext⟩

/-- Only `1` is a number. -/
def onlyOne (w : Atom) : Option (BitVec 64) := if w = atom ['1'] then some 1#64 else none

/-- `[1 '(a);` with the end of the line and `"^""]`, in front of a word. -/
def writtenText : List Byte :=
  atom ['[', '1', ' ', '\'', '(', 'a', ')', ';', '\n', '"', '^', '"', '"', ']']

def writtenDatum : Datum :=
  .list [.symbol (atom ['v', 'e', 'c', 't', 'o', 'r']), .number 1#64,
    .list [.symbol (atom ['q', 'u', 'o', 't', 'e']), .list [.symbol (atom ['a'])]],
    stringDatum (atom ['"'])]

theorem written_text : WrittenList onlyOne writtenDatum writtenText := by
  have hone : Written onlyOne (.number 1#64) (atom ['1']) := .number (by decide) rfl
  have ha : Written onlyOne (.symbol (atom ['a'])) (atom ['a']) := .symbol (by decide) rfl
  have hround : bracketHead (char '(') = some [] := rfl
  have hlist : Written onlyOne (.list [.symbol (atom ['a'])]) (atom ['(', 'a', ')']) :=
    .bracket hround (Or.inl ⟨rfl, rfl⟩) (.cons .nil ha stopped_nil (.nil .nil))
  have hquote : prefixName (char '\'') = some (atom ['q', 'u', 'o', 't', 'e']) := rfl
  have hspace : Gap (atom [' ']) := .space rfl .nil
  have hcomment : Gap (atom [';', '\n']) := .comment List.not_mem_nil .nil
  have hstring : WrittenAll onlyOne [stringDatum (atom ['"'])]
      (atom [';', '\n', '"', '^', '"', '"']) :=
    .cons hcomment (.string (atom ['"'])) stopped_nil (.nil .nil)
  have hrest := WrittenAll.cons hspace (.prefixed hquote .nil hlist) (stopped_cons rfl _) hstring
  have hsquare : bracketHead (char '[') = some [atom ['v', 'e', 'c', 't', 'o', 'r']] := rfl
  exact .mk hsquare (Or.inr (Or.inl ⟨rfl, rfl⟩)) (.cons .nil hone (stopped_cons rfl _) hrest)

theorem read_written_text : ∃ x s', readFrom onlyOne (.create writtenText [] (atom ['x']))
    = .ok (some x, s') ∧ x.datum = writtenDatum ∧ s'.text = atom ['x'] :=
  read_written written_text rfl

end Saurus
