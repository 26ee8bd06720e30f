import Saurus.Basis.Counted
import Saurus.Read.Whole
import Saurus.Read.Written

/-!
# Where reading ends

Every token takes a character, so `read_list` and `read_sexp` come to a result
or an error on every text, with no more tokens, and no deeper calls, than the
text has characters (`reading_ends`).

The end of the text ends a token as well as white space does only where the
first character of the token is enough to tell what it is
(`nextToken_end_iff`).
-/

namespace Saurus

open Basis

variable {tonumber : Atom → Option (BitVec 64)}

/-! ## Counting -/

/-- `next_token`, with the tokens it has read counted. -/
def countToken (tonumber : Atom → Option (BitVec 64)) (s : Stream) :
    Counted String (Option Tok × Stream) :=
  match nextToken tonumber s with
  | .ok (some tok, s') => .use 1 (.ok (some tok, s'))
  | r => .use 0 r

def Tok.closes : Tok → Bool
  | .char ch => Saurus.closes ch
  | .node _ => false

mutual

/-- `read_list`, with the tokens and the nested calls of `read_sexp` counted. -/
def countList (tonumber : Atom → Option (BitVec 64)) :
    Nat → Int → Stream → Option Tok → List Sexp → Counted String (List Sexp × Int × Stream)
  | 0, _, _, _, _ => .use 0 (.error noRoom)
  | _ + 1, n, s, none, data => pure (data, n, s)
  | fuel + 1, n, s, some tok, data =>
      if tok.closes then pure (data, n - 1, s)
      else do
        let (sexp, n, s) ← countSexp tonumber fuel n s tok
        match sexp with
        | none => pure (data, n, s)
        | some e => do
            let (tok, s) ← countToken tonumber s
            countList tonumber fuel n s tok (data ++ [e])

/-- `read_sexp`, counted. -/
def countSexp (tonumber : Atom → Option (BitVec 64)) :
    Nat → Int → Stream → Tok → Counted String (Option Sexp × Int × Stream)
  | 0, _, _, _ => .use 0 (.error noRoom)
  | _ + 1, n, s, .node e => .call (pure (some e, n, s))
  | fuel + 1, n, s, .char oldtok => .call do
      let line := s.line
      let (tok, s) ← countToken tonumber s
      match tok with
      | none => pure (none, n, s)
      | some tok =>
          if oldtok = char '\'' then
            countPrefixed tonumber fuel n s tok line (atom ['q', 'u', 'o', 't', 'e'])
          else if oldtok = char ',' then
            countPrefixed tonumber fuel n s tok line (atom ['u', 'n', 'q', 'u', 'o', 't', 'e'])
          else if oldtok = char '@' then
            countPrefixed tonumber fuel n s tok line (atom ['u', 'n', 'r', 'e', 'f'])
          else if oldtok = char '[' then
            countBracket tonumber fuel n s tok line
              [.symbol (atom ['v', 'e', 'c', 't', 'o', 'r']) s.line]
          else if oldtok = char '{' then
            countBracket tonumber fuel n s tok line [.symbol (atom ['m', 'a', 'p']) s.line]
          else if oldtok = char '(' then countBracket tonumber fuel n s tok line []
          else .use 0 (.error "Bad AST tree!")

def countPrefixed (tonumber : Atom → Option (BitVec 64)) :
    Nat → Int → Stream → Tok → Nat → Atom → Counted String (Option Sexp × Int × Stream)
  | 0, _, _, _, _, _ => .use 0 (.error noRoom)
  | fuel + 1, n, s, tok, line, name => do
      let (sexp, n, s) ← countSexp tonumber fuel n s tok
      match sexp with
      | none => pure (none, n, s)
      | some e => pure (some (.sexp [.symbol name s.line, e] line), n, s)

def countBracket (tonumber : Atom → Option (BitVec 64)) :
    Nat → Int → Stream → Tok → Nat → List Sexp → Counted String (Option Sexp × Int × Stream)
  | 0, _, _, _, _, _ => .use 0 (.error noRoom)
  | fuel + 1, lv, s, tok, line, data => do
      let (data, n, s) ← countList tonumber fuel (lv + 1) s (some tok) data
      if n ≠ lv then .use 0 (readError "S-Expression is not closed!" s)
      else pure (some (.sexp data line), n, s)

end

/-- `read`, counted. -/
def countRead (tonumber : Atom → Option (BitVec 64)) (s : Stream) :
    Counted String (Option Sexp) := do
  let (tok, s') ← countToken tonumber s
  match tok with
  | none => pure none
  | some tok => do
      let (sexp, _, _) ← countSexp tonumber (3 * s.text.length + 3) 0 s' tok
      pure sexp

/-! ## Counting changes nothing -/

@[simp] theorem result_countToken (s : Stream) :
    (countToken tonumber s).result = nextToken tonumber s := by
  unfold countToken
  split
  · rename_i h
    exact h.symm
  · rfl

theorem readList_some {fuel : Nat} (n : Int) (s : Stream) (tok : Tok) (data : List Sexp) :
    readList tonumber (fuel + 1) n s (some tok) data
      = if tok.closes then .ok (data, n - 1, s)
        else readSexp tonumber fuel n s tok >>= fun r => r.1.elim (.ok (data, r.2)) fun e =>
          nextToken tonumber r.2.2 >>= fun t =>
            readList tonumber fuel r.2.1 t.2 t.1 (data ++ [e]) := by
  split_ifs with hcloses
  · cases tok with
    | char c => exact readList_closer hcloses
    | node e => cases hcloses
  · refine readList_sexp data fun c hc => ?_
    subst hc
    exact eq_false_of_ne_true hcloses

/-- The functions with and without the counting. -/
structure CountsTo (tonumber : Atom → Option (BitVec 64)) (fuel : Nat) : Prop where
  list : ∀ n s tok data,
    (countList tonumber fuel n s tok data).result = readList tonumber fuel n s tok data
  sexp : ∀ n s tok, (countSexp tonumber fuel n s tok).result = readSexp tonumber fuel n s tok
  prefixed : ∀ n s tok line name, (countPrefixed tonumber fuel n s tok line name).result
    = readPrefixed tonumber fuel n s tok line name
  bracket : ∀ n s tok line data, (countBracket tonumber fuel n s tok line data).result
    = readBracket tonumber fuel n s tok line data

theorem bind_result_congr {α β : Type} {x : Except String α} {f g : α → Except String β}
    (h : ∀ a, f a = g a) : x >>= f = x >>= g := by
  cases x with
  | error => rfl
  | ok a => exact h a

theorem countsTo (fuel : Nat) : CountsTo tonumber fuel := by
  induction fuel with
  | zero =>
      exact ⟨fun _ _ _ _ => rfl, fun _ _ _ => rfl, fun _ _ _ _ _ => rfl, fun _ _ _ _ _ => rfl⟩
  | succ fuel ih =>
      refine ⟨fun n s tok data => ?_, fun n s tok => ?_, fun n s tok line name => ?_,
        fun n s tok line data => ?_⟩
      · cases tok with
        | none => rfl
        | some tok =>
            rw [countList, readList_some]
            split_ifs
            · rfl
            · rw [Counted.result_bind, ih.sexp]
              refine bind_result_congr ?_
              rintro ⟨x, n1, s1⟩
              cases x with
              | none => rfl
              | some e =>
                  dsimp only [Option.elim_some]
                  rw [Counted.result_bind, result_countToken]
                  exact bind_result_congr fun r => ih.list _ _ _ _
      · cases tok with
        | node e => rfl
        | char ch =>
            rw [countSexp, readSexp, Counted.result_call, Counted.result_bind, result_countToken]
            refine bind_result_congr ?_
            rintro ⟨tok, s1⟩
            cases tok with
            | none => rfl
            | some tok =>
                dsimp only
                split_ifs
                · exact ih.prefixed _ _ _ _ _
                · exact ih.prefixed _ _ _ _ _
                · exact ih.prefixed _ _ _ _ _
                · exact ih.bracket _ _ _ _ _
                · exact ih.bracket _ _ _ _ _
                · exact ih.bracket _ _ _ _ _
                · rfl
      · rw [countPrefixed, readPrefixed, Counted.result_bind, ih.sexp]
        refine bind_result_congr ?_
        rintro ⟨x, n1, s1⟩
        cases x <;> rfl
      · rw [countBracket, readBracket, Counted.result_bind, ih.list]
        refine bind_result_congr ?_
        rintro ⟨data, n1, s1⟩
        dsimp only
        split_ifs <;> rfl

theorem result_countRead (s : Stream) : (countRead tonumber s).result = read tonumber s := by
  rw [countRead, read, Counted.result_bind, result_countToken]
  refine bind_result_congr ?_
  rintro ⟨tok, s1⟩
  cases tok with
  | none => rfl
  | some tok =>
      dsimp only
      rw [Counted.result_bind, (countsTo _).sexp]
      exact bind_result_congr fun _ => rfl

/-! ## Bounds -/

/-- What a function of the reader leaves of the text. -/
def textLeft {α : Type} (r : α × Stream) : Nat := r.2.text.length

def textLeft' {α : Type} (r : α × Int × Stream) : Nat := r.2.2.text.length

theorem within_countToken (s : Stream) :
    (countToken tonumber s).Within s.text.length 0 textLeft := by
  have hspec := nextToken_spec tonumber s
  unfold countToken
  split
  · rename_i tok s1 hnext
    have hless := nextToken_length hnext
    refine ⟨Nat.one_le_of_lt hless, Nat.zero_le _, fun a ha => ?_⟩
    cases ha
    rw [Nat.add_comm]
    exact hless
  · rename_i hnone
    refine ⟨Nat.zero_le _, Nat.zero_le _, fun a ha => ?_⟩
    obtain ⟨tok, s1⟩ := a
    have hnext : nextToken tonumber s = .ok (tok, s1) := ha
    rw [hnext] at hspec
    cases hspec with
    | token | word => exact absurd hnext (hnone _ _)
    | nothing _ _ htext => rw [textLeft, htext]; exact Nat.zero_le _

theorem items_countToken {s s' : Stream} {tok : Tok}
    (h : nextToken tonumber s = .ok (some tok, s')) : (countToken tonumber s).items = 1 := by
  rw [countToken, h]
  rfl

/-- No more tokens are read than there are characters, and no more calls of
`read_sexp` are open than tokens have been read. -/
structure CountBound (tonumber : Atom → Option (BitVec 64)) (fuel : Nat) : Prop where
  list : ∀ n (s : Stream) tok data,
    (countList tonumber fuel n s tok data).Within s.text.length 1 textLeft'
  sexp : ∀ n (s : Stream) tok, (countSexp tonumber fuel n s tok).Within s.text.length 1 textLeft'
  prefixed : ∀ n (s : Stream) tok line name,
    (countPrefixed tonumber fuel n s tok line name).Within s.text.length 1 textLeft'
  bracket : ∀ n (s : Stream) tok line data,
    (countBracket tonumber fuel n s tok line data).Within s.text.length 1 textLeft'

variable (tonumber) in
theorem countBound (fuel : Nat) : CountBound tonumber fuel := by
  induction fuel with
  | zero =>
      exact ⟨fun _ _ _ _ => .error _, fun _ _ _ => .error _, fun _ _ _ _ _ => .error _,
        fun _ _ _ _ _ => .error _⟩
  | succ fuel ih =>
      refine ⟨fun n s tok data => ?_, fun n s tok => ?_, fun n s tok line name => ?_,
        fun n s tok line data => ?_⟩
      · cases tok with
        | none => exact .pure (Nat.le_refl _)
        | some tok =>
            rw [countList]
            split_ifs
            · exact .pure (Nat.le_refl _)
            · refine (ih.sexp n s tok).bind fun ⟨x, n1, s1⟩ _ => ?_
              cases x with
              | none => exact .pure (Nat.le_refl _)
              | some e =>
                  refine ((within_countToken s1).mono (Nat.zero_le _)).bind fun ⟨tok', s2⟩ _ => ?_
                  exact (ih.list n1 s2 tok' _).mono (by omega)
      · cases tok with
        | node e => exact Counted.Within.call (.pure (Nat.le_refl _))
        | char ch =>
            rw [countSexp]
            refine Counted.Within.call ((within_countToken s).bind fun ⟨tok, s1⟩ hnext => ?_)
            cases tok with
            | none => exact .pure (Nat.le_refl _)
            | some tok =>
                rw [result_countToken] at hnext
                rw [items_countToken hnext]
                dsimp only
                split_ifs
                · exact ih.prefixed _ _ _ _ _
                · exact ih.prefixed _ _ _ _ _
                · exact ih.prefixed _ _ _ _ _
                · exact ih.bracket _ _ _ _ _
                · exact ih.bracket _ _ _ _ _
                · exact ih.bracket _ _ _ _ _
                · exact .error _
      · rw [countPrefixed]
        refine (ih.sexp n s tok).bind fun ⟨x, n1, s1⟩ _ => ?_
        cases x with
        | none => exact .pure (Nat.le_refl _)
        | some e => exact .pure (Nat.le_refl _)
      · rw [countBracket]
        refine (ih.list (n + 1) s (some tok) data).bind fun ⟨data, n1, s1⟩ _ => ?_
        dsimp only
        split_ifs
        · exact .error _
        · exact .pure (Nat.le_refl _)

variable (tonumber) in
theorem within_countRead (s : Stream) :
    (countRead tonumber s).Within s.text.length 0 fun _ => 0 := by
  refine (within_countToken s).bind fun ⟨tok, s1⟩ hnext => ?_
  cases tok with
  | none => exact .pure (Nat.zero_le _)
  | some tok =>
      rw [result_countToken] at hnext
      rw [items_countToken hnext]
      exact ((countBound tonumber _).sexp 0 s1 tok).bind fun _ _ => .pure (Nat.zero_le _)

/-! ## Enough room -/

/-- What has a result with some room has the same with more. -/
def SameWith {α : Type} (x y : Except String α) : Prop := x ≠ .error noRoom → y = x

theorem SameWith.bind {α β : Type} {x y : Except String α} {f g : α → Except String β}
    (h : SameWith x y) (hfg : ∀ a, SameWith (f a) (g a)) : SameWith (x >>= f) (y >>= g) := by
  intro hne
  cases x with
  | error msg =>
      rw [h fun he => hne (by rw [he]; rfl)]
      rfl
  | ok a =>
      rw [h ok_ne_noRoom]
      exact hfg a hne

theorem sameWith_self {α : Type} (x : Except String α) : SameWith x x := fun _ => rfl

theorem sameWith_noRoom {α : Type} (y : Except String α) : SameWith (.error noRoom) y :=
  fun h => absurd rfl h

/-- More room changes nothing. -/
structure SameAtNext (tonumber : Atom → Option (BitVec 64)) (fuel : Nat) : Prop where
  list : ∀ n s tok data,
    SameWith (readList tonumber fuel n s tok data) (readList tonumber (fuel + 1) n s tok data)
  sexp : ∀ n s tok, SameWith (readSexp tonumber fuel n s tok) (readSexp tonumber (fuel + 1) n s tok)
  prefixed : ∀ n s tok line name, SameWith (readPrefixed tonumber fuel n s tok line name)
    (readPrefixed tonumber (fuel + 1) n s tok line name)
  bracket : ∀ n s tok line data, SameWith (readBracket tonumber fuel n s tok line data)
    (readBracket tonumber (fuel + 1) n s tok line data)

theorem same_at_next (fuel : Nat) : SameAtNext tonumber fuel := by
  induction fuel with
  | zero =>
      exact ⟨fun _ _ _ _ => sameWith_noRoom _, fun _ _ _ => sameWith_noRoom _,
        fun _ _ _ _ _ => sameWith_noRoom _, fun _ _ _ _ _ => sameWith_noRoom _⟩
  | succ fuel ih =>
      refine ⟨fun n s tok data => ?_, fun n s tok => ?_, fun n s tok line name => ?_,
        fun n s tok line data => ?_⟩
      · cases tok with
        | none => exact sameWith_self _
        | some tok =>
            rw [readList_some, readList_some]
            split_ifs
            · exact sameWith_self _
            · refine (ih.sexp n s tok).bind ?_
              rintro ⟨x, n1, s1⟩
              cases x with
              | none => exact sameWith_self _
              | some e => exact (sameWith_self _).bind fun r => ih.list _ _ _ _
      · cases tok with
        | node e => exact sameWith_self _
        | char ch =>
            rw [readSexp, readSexp]
            refine (sameWith_self _).bind ?_
            rintro ⟨tok, s1⟩
            cases tok with
            | none => exact sameWith_self _
            | some tok =>
                dsimp only
                split_ifs
                · exact ih.prefixed _ _ _ _ _
                · exact ih.prefixed _ _ _ _ _
                · exact ih.prefixed _ _ _ _ _
                · exact ih.bracket _ _ _ _ _
                · exact ih.bracket _ _ _ _ _
                · exact ih.bracket _ _ _ _ _
                · exact sameWith_self _
      · rw [readPrefixed, readPrefixed]
        exact (ih.sexp n s tok).bind fun _ => sameWith_self _
      · rw [readBracket, readBracket]
        exact (ih.list (n + 1) s (some tok) data).bind fun _ => sameWith_self _

/-- A function that has room from `room` on comes to what it is there. -/
theorem same_from {α : Type} {f : Nat → Except String α} {room : Nat}
    (hroom : ∀ fuel, room ≤ fuel → f fuel ≠ .error noRoom)
    (hsame : ∀ fuel, SameWith (f fuel) (f (fuel + 1))) :
    ∃ r, r ≠ .error noRoom ∧ ∀ fuel, room ≤ fuel → f fuel = r := by
  refine ⟨f room, hroom room (Nat.le_refl _), fun fuel hfuel => ?_⟩
  obtain ⟨more, rfl⟩ := Nat.exists_eq_add_of_le hfuel
  clear hfuel
  induction more with
  | zero => rfl
  | succ more ih => rw [← Nat.add_assoc, hsame _ (hroom _ (Nat.le_add_right ..)), ih]

variable (tonumber) in
/-- `read_list` comes to a result or an error. -/
theorem readList_ends (n : Int) (s : Stream) (tok : Option Tok) (data : List Sexp) :
    ∃ r, r ≠ .error noRoom
      ∧ ∀ fuel, 3 * s.text.length + 2 ≤ fuel → readList tonumber fuel n s tok data = r :=
  same_from (fun fuel hfuel => (read_room fuel).1 n s tok data hfuel)
    fun fuel => (same_at_next fuel).list n s tok data

variable (tonumber) in
/-- `read_sexp` comes to a result or an error. -/
theorem readSexp_ends (n : Int) (s : Stream) (tok : Tok) :
    ∃ r, r ≠ .error noRoom
      ∧ ∀ fuel, 3 * s.text.length + 1 ≤ fuel → readSexp tonumber fuel n s tok = r :=
  same_from (fun fuel hfuel => (read_room fuel).2 n s tok hfuel)
    fun fuel => (same_at_next fuel).sexp n s tok

theorem read_ne_noRoom (s : Stream) : read tonumber s ≠ .error noRoom := by
  rw [read_eq]
  intro h
  cases hread : readFrom tonumber s with
  | error msg =>
      rw [hread] at h
      cases h
      exact readFrom_room s hread
  | ok r =>
      rw [hread] at h
      cases h

/-- `next_token` finds nothing, a token and with it a character, or an error. -/
theorem nextToken_ends (s : Stream) :
    (∃ s', nextToken tonumber s = .ok (none, s') ∧ s'.text = [])
    ∨ (∃ tok s', nextToken tonumber s = .ok (some tok, s') ∧ s'.text.length < s.text.length)
    ∨ ∃ msg, nextToken tonumber s = .error msg := by
  have hspec := nextToken_spec tonumber s
  cases hnext : nextToken tonumber s with
  | error msg => exact Or.inr (Or.inr ⟨msg, rfl⟩)
  | ok r =>
      obtain ⟨tok, s'⟩ := r
      cases tok with
      | some tok => exact Or.inr (Or.inl ⟨tok, s', rfl, nextToken_length hnext⟩)
      | none =>
          rw [hnext] at hspec
          cases hspec with
          | nothing _ _ htext => exact Or.inl ⟨s', rfl, htext⟩

/-- Reading ends with a result or an error on every stream: every token takes a
character, and so the text bounds the tokens, and these the nesting. -/
theorem reading_ends (tonumber : Atom → Option (BitVec 64)) (s : Stream) :
    ((∃ s', nextToken tonumber s = .ok (none, s') ∧ s'.text = [])
      ∨ (∃ tok s', nextToken tonumber s = .ok (some tok, s') ∧ s'.text.length < s.text.length)
      ∨ ∃ msg, nextToken tonumber s = .error msg)
    ∧ (∀ n tok data, ∃ r, r ≠ .error noRoom
      ∧ ∀ fuel, 3 * s.text.length + 2 ≤ fuel → readList tonumber fuel n s tok data = r
        ∧ (countList tonumber fuel n s tok data).result = r
        ∧ (countList tonumber fuel n s tok data).items ≤ s.text.length
        ∧ (countList tonumber fuel n s tok data).depth
          ≤ (countList tonumber fuel n s tok data).items + 1)
    ∧ (∀ n tok, ∃ r, r ≠ .error noRoom
      ∧ ∀ fuel, 3 * s.text.length + 1 ≤ fuel → readSexp tonumber fuel n s tok = r
        ∧ (countSexp tonumber fuel n s tok).result = r
        ∧ (countSexp tonumber fuel n s tok).items ≤ s.text.length
        ∧ (countSexp tonumber fuel n s tok).depth
          ≤ (countSexp tonumber fuel n s tok).items + 1)
    ∧ read tonumber s ≠ .error noRoom
    ∧ (countRead tonumber s).result = read tonumber s
    ∧ (countRead tonumber s).items ≤ s.text.length
    ∧ (countRead tonumber s).depth ≤ (countRead tonumber s).items := by
  have hread := within_countRead tonumber s
  refine ⟨nextToken_ends s, fun n tok data => ?_, fun n tok => ?_, read_ne_noRoom s,
    result_countRead s, hread.items, hread.depth⟩
  · obtain ⟨r, hr, hall⟩ := readList_ends tonumber n s tok data
    have hcount := fun fuel => (countBound tonumber fuel).list n s tok data
    exact ⟨r, hr, fun fuel hfuel => ⟨hall fuel hfuel,
      ((countsTo fuel).list n s tok data).trans (hall fuel hfuel), (hcount fuel).items,
      (hcount fuel).depth⟩⟩
  · obtain ⟨r, hr, hall⟩ := readSexp_ends tonumber n s tok
    have hcount := fun fuel => (countBound tonumber fuel).sexp n s tok
    exact ⟨r, hr, fun fuel hfuel => ⟨hall fuel hfuel,
      ((countsTo fuel).sexp n s tok).trans (hall fuel hfuel), (hcount fuel).items,
      (hcount fuel).depth⟩⟩

/-! ## The end of the text -/

/-- The stream with more behind what is left of its file. -/
def Stream.followed (s : Stream) (cs : List Byte) : Stream := { s with file := s.file ++ cs }

section Followed

variable {s : Stream} {c ch : Byte} {w : Atom}

/-- A character of an atom is read alike whatever is behind it, and on the same line. -/
theorem read_followed (cs : List Byte) (hpost : s.post = []) (hc : isOrdinary c = true)
    (h : s.text = c :: w) :
    ∃ s1, s.read = (some c, s1) ∧ (s.followed cs).read = (some c, s1.followed cs)
      ∧ s1.text = w ∧ s1.post = [] ∧ s1.line = s.line := by
  have hline : c ≠ char '\n' := by
    rintro rfl
    cases hc
  obtain ⟨cache, pre, file, post, line⟩ := s
  obtain rfl : post = [] := hpost
  rcases cache with _ | b
  · rcases pre with _ | ⟨b, pre⟩
    · rcases file with _ | ⟨b, file⟩
      · cases h
      · obtain ⟨rfl, rfl⟩ := List.cons.inj h
        exact ⟨_, rfl, rfl, rfl, rfl, if_neg hline⟩
    · obtain ⟨rfl, rfl⟩ := List.cons.inj h
      exact ⟨_, rfl, rfl, rfl, rfl, rfl⟩
  · obtain ⟨rfl, rfl⟩ := List.cons.inj h
    exact ⟨_, rfl, rfl, rfl, rfl, if_neg hline⟩

/-- White space behind the text is read and taken back, the end of the text is found. -/
theorem readAtom_end (cs : List Byte) (hpost : s.post = []) (h : s.text = [])
    (hch : isOrdinary ch = false) (str : Atom) :
    (∃ s1, readAtom s str = (none, s1) ∧ s1.line = s.line)
    ∧ ∃ s1, readAtom (s.followed (ch :: cs)) str = (some str, s1) ∧ s1.line = s.line := by
  obtain ⟨cache, pre, file, post, line⟩ := s
  simp only [Stream.text, List.append_eq_nil_iff, Option.toList_eq_nil_iff] at h
  obtain ⟨⟨⟨rfl, rfl⟩, rfl⟩, rfl⟩ := h
  constructor
  · refine ⟨⟨none, [], [], [], line⟩, ?_, rfl⟩
    rw [readAtom]
    rfl
  · have hread : (Stream.followed ⟨none, [], [], [], line⟩ (ch :: cs)).read
        = (some ch, ⟨none, [], cs, [], if ch = char '\n' then line + 1 else line⟩) := rfl
    refine ⟨_, (readAtom_eq hread str).trans (by rw [hch, if_neg Bool.false_ne_true]), ?_⟩
    dsimp only [Stream.unread]
    split_ifs <;> rfl

theorem readAtom_followed (cs : List Byte) (hpost : s.post = []) (h : s.text = w)
    (hw : ∀ c ∈ w, isOrdinary c = true) (hch : isOrdinary ch = false) (str : Atom) :
    (∃ s1, readAtom s str = (none, s1) ∧ s1.line = s.line)
    ∧ ∃ s1, readAtom (s.followed (ch :: cs)) str = (some (str ++ w), s1) ∧ s1.line = s.line := by
  induction w generalizing s str with
  | nil =>
      rw [List.append_nil]
      exact readAtom_end cs hpost h hch str
  | cons c w ih =>
      have hc := hw c List.mem_cons_self
      obtain ⟨s1, hread, hread', htext, hpost', hline⟩ :=
        read_followed (ch :: cs) hpost hc h
      have hrest := ih hpost' htext (fun c hc => hw c (List.mem_cons_of_mem _ hc)) (str ++ [c])
      rw [List.append_assoc, hline] at hrest
      rw [readAtom_eq hread, readAtom_eq hread', if_pos hc, if_pos hc]
      exact hrest

variable (tonumber) in
/-- The token of a word at the end of the text, and with white space behind it. -/
theorem nextToken_followed (cs : List Byte) (hw : IsWord w) (hpost : s.post = []) (h : s.text = w)
    (hch : isOrdinary ch = false) :
    (∃ s1, nextToken tonumber s
      = .ok (some (.node (wordNode tonumber (w.take 1) s.line)), s1))
    ∧ ∃ s1, nextToken tonumber (s.followed (ch :: cs))
      = .ok (some (.node (wordNode tonumber w s.line)), s1) := by
  obtain ⟨c, w, rfl⟩ := List.exists_cons_of_ne_nil hw.1
  have hc := hw.2 c List.mem_cons_self
  obtain ⟨s1, hread, hread', htext, hpost', hline⟩ := read_followed (ch :: cs) hpost hc h
  obtain ⟨⟨s2, hatom, hline'⟩, s3, hatom', hline''⟩ := readAtom_followed cs hpost' htext
    (fun c hc => hw.2 c (List.mem_cons_of_mem _ hc)) hch []
  constructor
  · refine ⟨s2, ?_⟩
    rw [nextToken_ordinary hc hread, hatom, ← hline, ← hline']
    rfl
  · refine ⟨s3, ?_⟩
    rw [nextToken_ordinary hc hread', hatom', ← hline, ← hline'']
    rfl

variable (tonumber) in
/-- A word that the text ends in gives the token of its first character. -/
theorem nextToken_end (hw : IsWord w) (h : s.text = w) :
    ∃ line s1, nextToken tonumber s
      = .ok (some (.node (wordNode tonumber (w.take 1) line)), s1) := by
  obtain ⟨c, w, rfl⟩ := List.exists_cons_of_ne_nil hw.1
  obtain ⟨s1, hread, htext⟩ := read_cons h
  rcases hatom : readAtom s1 [] with ⟨r, s2⟩
  obtain ⟨u, hsplit, hstop, -, hr⟩ := readAtom_spec tonumber hatom
  have hend : s2.text = [] := by
    cases hrest : s2.text with
    | nil => rfl
    | cons ch cs =>
        have hmem : ch ∈ c :: w := by
          rw [← htext, hsplit, hrest]
          simp
        cases (hw.2 ch hmem).symm.trans (hstop ch (by rw [hrest]; rfl))
  rw [if_pos hend] at hr
  refine ⟨s2.line, s2, ?_⟩
  rw [nextToken_ordinary (hw.2 c List.mem_cons_self) hread, hatom, hr]
  rfl

end Followed

/-- The end of the text ends the token of this word as white space does: the
token is what the whole word spells. Behind the file it is also on the same line. -/
structure EndsAlike (tonumber : Atom → Option (BitVec 64)) (w : Atom) : Prop where
  token : ∀ (s s' : Stream) ch cs, isSpace ch = true → s.text = w → s'.text = w ++ ch :: cs →
    ∃ tok tok' s1 s1', nextToken tonumber s = .ok (some tok, s1)
      ∧ nextToken tonumber s' = .ok (some tok', s1')
      ∧ tok.token = .datum (wordDatum tonumber w) ∧ tok'.token = .datum (wordDatum tonumber w)
  line : ∀ (s : Stream) ch cs, isSpace ch = true → s.post = [] → s.text = w →
    ∃ s1 s1', nextToken tonumber s = .ok (some (.node (wordNode tonumber w s.line)), s1)
      ∧ nextToken tonumber (s.followed (ch :: cs))
        = .ok (some (.node (wordNode tonumber w s.line)), s1')

theorem isSpace_ordinary {ch : Byte} (h : isSpace ch = true) : isOrdinary ch = false := by
  rw [isOrdinary, h, Bool.not_true, Bool.and_false]

theorem wordNode_congr {w w' : Atom} {line : Nat}
    (h : wordDatum tonumber w = wordDatum tonumber w') :
    wordNode tonumber w line = wordNode tonumber w' line := by
  unfold wordDatum at h
  unfold wordNode
  cases hw : tonumber w <;> cases hw' : tonumber w' <;>
  · rw [hw, hw'] at h
    cases h <;> rfl

/-- What the first character of a word spells. -/
theorem wordDatum_take {w : Atom} (hw : w ≠ []) :
    wordDatum tonumber (w.take 1) = wordDatum tonumber w
      ↔ w.length = 1 ∨ ∃ n, tonumber w = some n ∧ tonumber (w.take 1) = some n := by
  obtain ⟨c, w, rfl⟩ := List.exists_cons_of_ne_nil hw
  rw [List.take_succ_cons, List.take_zero, List.length_cons]
  constructor
  · intro h
    unfold wordDatum at h
    cases hword : tonumber (c :: w) with
    | some n =>
        cases hfirst : tonumber [c] with
        | some m =>
            rw [hword, hfirst] at h
            cases h
            exact Or.inr ⟨n, rfl, rfl⟩
        | none =>
            rw [hword, hfirst] at h
            cases h
    | none =>
        cases hfirst : tonumber [c] with
        | some m =>
            rw [hword, hfirst] at h
            cases h
        | none =>
            rw [hword, hfirst] at h
            cases h
            exact Or.inl rfl
  · rintro (hlen | ⟨n, hword, hfirst⟩)
    · obtain rfl := List.length_eq_zero_iff.mp (Nat.succ.inj hlen)
      rfl
    · unfold wordDatum
      rw [hword, hfirst]

/-- The end of the text ends a token as white space does if and only if the
word is one character, or a number that its first character is as well. -/
theorem nextToken_end_iff {w : Atom} (hw : IsWord w) :
    EndsAlike tonumber w
      ↔ w.length = 1 ∨ ∃ n, tonumber w = some n ∧ tonumber (w.take 1) = some n := by
  rw [← wordDatum_take hw.1]
  constructor
  · intro h
    obtain ⟨tok, _, s1, _, hnext, -, htok, -⟩ := h.token (.create w [] [])
      (.create (w ++ [char ' ']) [] []) (char ' ') [] rfl (by simp) (by simp)
    obtain ⟨line, s2, hend⟩ := nextToken_end tonumber hw
      (s := .create w [] []) (by simp)
    cases hnext.symm.trans hend
    exact Token.datum.inj ((token_wordNode _ _).symm.trans htok)
  · intro h
    refine ⟨fun s s' ch cs hspace hs hs' => ?_, fun s ch cs hspace hpost hs => ?_⟩
    · obtain ⟨line, s1, hend⟩ := nextToken_end tonumber hw hs
      obtain ⟨line', s2, hspaced, -⟩ := nextToken_written_word hw (isSpace_ordinary hspace) hs'
      exact ⟨_, _, s1, s2, hend, hspaced, by rw [token_wordNode, h], token_wordNode w line'⟩
    · obtain ⟨⟨s1, hend⟩, s2, hspaced⟩ := nextToken_followed tonumber cs hw hpost hs
        (isSpace_ordinary hspace)
      refine ⟨s1, s2, ?_, hspaced⟩
      rw [hend, wordNode_congr h]

/-- Words of zeros spell the number 0, all others none. -/
def zeroNumber : Atom → Option (BitVec 64) := fun w =>
  if w ≠ [] ∧ w.all (· == char '0') then some 0#64 else none

/-- `00` is two characters and a number, and its first character is the same
number; so it may end the text. -/
theorem nextToken_end_zeros : EndsAlike zeroNumber (atom ['0', '0']) :=
  (nextToken_end_iff (by decide)).mpr (Or.inr ⟨0#64, rfl, rfl⟩)

/-- `ab` at the end of the text is the symbol `a`. -/
theorem not_ends_alike : ¬ ∀ w, IsWord w → EndsAlike noNumber w := by
  intro h
  obtain ⟨_, _, hnext, -⟩ := (h (atom ['a', 'b']) (by decide)).line
    (.create (atom ['a', 'b']) [] []) (char ' ') [] rfl rfl rfl
  obtain ⟨line, s1, hend⟩ := nextToken_end noNumber (w := atom ['a', 'b']) (by decide)
    (s := .create (atom ['a', 'b']) [] []) rfl
  have hsame := hnext.symm.trans hend
  simp only [Except.ok.injEq, Prod.mk.injEq, Option.some.injEq, Tok.node.injEq] at hsame
  exact absurd (Sexp.symbol.inj hsame.1).1 (by decide)

end Saurus
