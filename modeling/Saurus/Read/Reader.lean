import Saurus.Gen.Syntax

/-!
# The reader

`create_stream` and `read`. A stream hands out its prefix, the file and its
postfix character by character, and takes back one character. The loops over
characters go on as long as there are any; `read_list` and `read_sexp` call
each other, within a bound that `read` takes from the length of the text.
The stack of Lua has no bound here.

`tonumber` is a parameter.
-/

namespace Saurus

/-! ## Streams -/

/-- A stream: `_cache`, what is left of `_prefix`, of the file and of
`_postfix` (empty where the source has nil), and `_line`. -/
structure Stream where
  cache : Option Byte
  pre : List Byte
  file : List Byte
  post : List Byte
  line : Nat

def char (c : Char) : Byte := BitVec.ofNat 8 c.toNat

namespace Stream

/-- `create_stream` -/
def create (file pre post : List Byte) : Stream := ⟨none, pre, file, post, 1⟩

/-- The line after a character was read. -/
def lineAfter (s : Stream) (ch : Byte) : Nat := if ch = char '\n' then s.line + 1 else s.line

/-- `stream:read(1)` -/
def read (s : Stream) : Option Byte × Stream :=
  match s.cache, s.pre, s.file, s.post with
  | some ch, _, _, _ => (some ch, { s with cache := none, line := s.lineAfter ch })
  | none, ch :: pre, _, _ => (some ch, { s with pre := pre })
  | none, [], ch :: file, _ => (some ch, { s with file := file, line := s.lineAfter ch })
  | none, [], [], ch :: post => (some ch, { s with post := post })
  | none, [], [], [] => (none, s)

/-- `stream:unread(ch)` -/
def unread (s : Stream) (ch : Byte) : Stream :=
  { s with cache := some ch, line := if ch = char '\n' then s.line - 1 else s.line }

/-- What is left to be read. -/
def text (s : Stream) : List Byte := s.cache.toList ++ s.pre ++ s.file ++ s.post

@[simp] theorem text_create (file pre post : List Byte) :
    (create file pre post).text = pre ++ file ++ post := rfl

/-- Reading takes the first character of the text. -/
theorem read_text (s : Stream) :
    (s.read).1 = s.text.head? ∧ (s.read).2.text = s.text.tail := by
  obtain ⟨cache, pre, file, post, line⟩ := s
  rcases cache with _ | ch
  · rcases pre with _ | ⟨ch, pre⟩
    · rcases file with _ | ⟨ch, file⟩
      · rcases post with _ | ⟨ch, post⟩ <;> exact ⟨rfl, rfl⟩
      · exact ⟨rfl, rfl⟩
    · exact ⟨rfl, rfl⟩
  · exact ⟨rfl, rfl⟩

theorem read_none {s s' : Stream} (h : s.read = (none, s')) : s.text = [] ∧ s'.text = [] := by
  obtain ⟨hhead, htail⟩ := s.read_text
  rw [h] at hhead htail
  have hnil := List.head?_eq_none_iff.mp hhead.symm
  exact ⟨hnil, htail.trans (by rw [hnil]; rfl)⟩

theorem read_some {s s' : Stream} {ch : Byte} (h : s.read = (some ch, s')) :
    s.text = ch :: s'.text := by
  obtain ⟨hhead, htail⟩ := s.read_text
  rw [h] at hhead htail
  obtain ⟨cs, hcs⟩ := List.head?_eq_some_iff.mp hhead.symm
  rw [htail, hcs]
  rfl

/-- A character taken back is the next one, as long as the cache was used up. -/
theorem text_unread {s : Stream} (ch : Byte) (h : s.cache = none) :
    (s.unread ch).text = ch :: s.text := by
  simp [text, unread, h]

theorem cache_read {s s' : Stream} {ch : Option Byte} (h : s.read = (ch, s')) :
    s'.cache = none := by
  obtain ⟨cache, pre, file, post, line⟩ := s
  rcases cache with _ | c
  · rcases pre with _ | ⟨c, pre⟩
    · rcases file with _ | ⟨c, file⟩
      · rcases post with _ | ⟨c, post⟩ <;> (cases h; rfl)
      · cases h
        rfl
    · cases h
      rfl
  · cases h
    rfl

end Stream

/-! ## Characters -/

/-- `SPECIAL_CHARS` -/
def specialChars : List Byte := atom ['[', ']', '{', '}', '(', ')', '@', '\'', ',']

/-- `is_space`: what `%s` matches. -/
def isSpace (ch : Byte) : Bool := ch = 32#8 || (9#8 ≤ ch && ch ≤ 13#8)

/-- A character of an atom. -/
def isOrdinary (ch : Byte) : Bool :=
  !(specialChars.contains ch || ch = char ';' || ch = char '"') && !isSpace ch

/-- `read_error` -/
def readError {α : Type} (msg : String) (s : Stream) : Except String α :=
  .error (msg ++ " Line: " ++ toString s.line)

theorem head?_append_left {s : String} {c : Char} (h : s.toList.head? = some c) (t : String) :
    (s ++ t).toList.head? = some c := by
  rw [String.toList_append, List.head?_append, h, Option.some_or]

theorem readError_head {α : Type} {msg m : String} {c : Char} {s : Stream}
    (h : msg.toList.head? = some c) (hm : (readError msg s : Except String α) = .error m) :
    m.toList.head? = some c := by
  cases hm
  exact head?_append_left (head?_append_left h _) _

/-! ## Loops over characters -/

/-- `read_comment` -/
def readComment (s : Stream) : Stream :=
  match _hread : s.read with
  | (none, s') => s'
  | (some ch, s') => if ch = char '\n' then s' else readComment s'
termination_by s.text.length
decreasing_by
  rw [Stream.read_some _hread]
  exact Nat.lt_succ_self _

/-- `read_atom`, with what it has read so far. -/
def readAtom (s : Stream) (str : Atom) : Option Atom × Stream :=
  match _hread : s.read with
  | (none, s') => (none, s')
  | (some ch, s') =>
      if isOrdinary ch then readAtom s' (str ++ [ch])
      else (some str, s'.unread ch)
termination_by s.text.length
decreasing_by
  rw [Stream.read_some _hread]
  exact Nat.lt_succ_self _

/-- `read_space` -/
def readSpace (s : Stream) : Option Byte × Stream :=
  match _hread : s.read with
  | (none, s') => (none, s')
  | (some ch, s') => if isSpace ch then readSpace s' else (some ch, s')
termination_by s.text.length
decreasing_by
  rw [Stream.read_some _hread]
  exact Nat.lt_succ_self _

/-- The characters that `^` stands before. -/
def escaped (ch : Byte) : Option Byte :=
  if ch = char '"' then some ch
  else if ch = char 'n' then some (char '\n')
  else if ch = char 'r' then some (char '\r')
  else if ch = char 't' then some (char '\t')
  else if ch = char '^' then some ch
  else none

def endOfString : String := "Unexpected end of string!"

/-- `read_string_esc`: what is added to the string, and the new bound. -/
def readStringEsc (s : Stream) (bound : Byte) : Except String (Atom × Byte × Stream) :=
  match s.read with
  | (none, s') => readError endOfString s'
  | (some ch, s') =>
      match escaped ch with
      | some c => .ok ([c], bound, s')
      | none =>
          if ch = char '!' then
            match s'.read with
            | (none, s'') => readError endOfString s''
            | (some ch, s'') => .ok ([], ch, s'')
          else readError ("Invalid escape character: '" ++ Atom.text [ch] ++ "'") s'

theorem readStringEsc_text {s s' : Stream} {bound bound' : Byte} {str : Atom}
    (h : readStringEsc s bound = .ok (str, bound', s')) :
    s'.text.length < s.text.length := by
  unfold readStringEsc at h
  split at h
  · cases h
  · rename_i ch s1 hread
    rw [Stream.read_some hread, List.length_cons]
    split at h
    · cases h
      exact Nat.lt_succ_self _
    · split at h
      · split at h
        · cases h
        · rename_i c s2 hread'
          cases h
          rw [Stream.read_some hread', List.length_cons]
          omega
      · cases h

/-- `read_string`, with what it has read so far. -/
def readStringFrom (s : Stream) (bound : Byte) (str : Atom) : Except String (Atom × Stream) :=
  match _hread : s.read with
  | (none, s') => readError endOfString s'
  | (some ch, s') =>
      if ch = char '^' then
        match _hesc : readStringEsc s' bound with
        | .error msg => .error msg
        | .ok (c, bound, s'') => readStringFrom s'' bound (str ++ c)
      else if ch ≠ bound then readStringFrom s' bound (str ++ [ch])
      else .ok (str, s')
termination_by s.text.length
decreasing_by
  · have := readStringEsc_text _hesc
    rw [Stream.read_some _hread, List.length_cons]
    omega
  · rw [Stream.read_some _hread]
    exact Nat.lt_succ_self _

/-! ## Tokens -/

/-- What `next_token` returns: a special character, or a node. -/
inductive Tok where
  | char (ch : Byte)
  | node (e : Sexp)

theorem readComment_le (s : Stream) : (readComment s).text.length ≤ s.text.length := by
  fun_induction readComment s with
  | case1 s s' h => rw [(Stream.read_none h).2]; exact Nat.zero_le _
  | case2 s s' h => rw [Stream.read_some h, List.length_cons]; omega
  | case3 s ch s' h hne ih => rw [Stream.read_some h, List.length_cons]; omega

theorem readSpace_lt {s s' : Stream} {ch : Byte} (h : readSpace s = (some ch, s')) :
    s'.text.length < s.text.length := by
  fun_induction readSpace s with
  | case1 => cases h
  | case2 s c s1 hread hspace ih =>
      rw [Stream.read_some hread, List.length_cons]
      exact Nat.lt_succ_of_lt (ih h)
  | case3 s c s1 hread hspace =>
      cases h
      rw [Stream.read_some hread]
      exact Nat.lt_succ_self _

/-- The node of a word. -/
def wordNode (tonumber : Atom → Option (BitVec 64)) (str : Atom) (line : Nat) : Sexp :=
  match tonumber str with
  | some num => .number num line
  | none => .symbol str line

/-- The node of a string literal. -/
def stringNode (str : Atom) (line : Nat) : Sexp :=
  .sexp [.symbol (atom ['q', 'u', 'o', 't', 'e']) line, .symbol str line] line

/-- `next_token`. An atom that the text ends in keeps its first character
only. -/
def nextToken (tonumber : Atom → Option (BitVec 64)) (s : Stream) :
    Except String (Option Tok × Stream) :=
  match _hspace : readSpace s with
  | (none, s') => .ok (none, s')
  | (some ch, s') =>
      if ch = char ';' then nextToken tonumber (readComment s')
      else if ch = char '"' then do
        let (str, s'') ← readStringFrom s' (char '"') []
        .ok (some (.node (stringNode str s''.line)), s'')
      else if specialChars.contains ch then .ok (some (.char ch), s')
      else
        let (str, s'') := readAtom s' []
        .ok (some (.node (wordNode tonumber (ch :: str.getD []) s''.line)), s'')
termination_by s.text.length
decreasing_by
  have := readComment_le s'
  have := readSpace_lt _hspace
  omega

/-! ## Expressions -/

/-- `tok == ')' or tok == '}' or tok == ']'` -/
def closes (ch : Byte) : Bool := ch = char ')' || ch = char '}' || ch = char ']'

mutual

/-- `read_list`: the elements, `num_sexp`, and the stream. -/
def readList (tonumber : Atom → Option (BitVec 64)) :
    Nat → Int → Stream → Option Tok → List Sexp → Except String (List Sexp × Int × Stream)
  | 0, _, _, _, _ => .error "stack overflow"
  | _ + 1, n, s, none, data => .ok (data, n, s)
  | fuel + 1, n, s, some tok, data => do
      if let .char ch := tok then
        if closes ch then return (data, n - 1, s)
      let (sexp, n, s) ← readSexp tonumber fuel n s tok
      match sexp with
      | none => .ok (data, n, s)
      | some e => do
          let (tok, s) ← nextToken tonumber s
          readList tonumber fuel n s tok (data ++ [e])

/-- `read_sexp`. The stack of Lua is taken to be as deep as the text asks for;
the calls of the real one end at `LUAI_MAXCALLS`, which about 8190 nested
brackets reach. -/
def readSexp (tonumber : Atom → Option (BitVec 64)) :
    Nat → Int → Stream → Tok → Except String (Option Sexp × Int × Stream)
  | 0, _, _, _ => .error "stack overflow"
  | _ + 1, n, s, .node e => .ok (some e, n, s)
  | fuel + 1, n, s, .char oldtok => do
      let line := s.line
      let (tok, s) ← nextToken tonumber s
      match tok with
      | none => .ok (none, n, s)
      | some tok =>
          if oldtok = char '\'' then
            readPrefixed tonumber fuel n s tok line (atom ['q', 'u', 'o', 't', 'e'])
          else if oldtok = char ',' then
            readPrefixed tonumber fuel n s tok line (atom ['u', 'n', 'q', 'u', 'o', 't', 'e'])
          else if oldtok = char '@' then
            readPrefixed tonumber fuel n s tok line (atom ['u', 'n', 'r', 'e', 'f'])
          else if oldtok = char '[' then
            readBracket tonumber fuel n s tok line
              [.symbol (atom ['v', 'e', 'c', 't', 'o', 'r']) s.line]
          else if oldtok = char '{' then
            readBracket tonumber fuel n s tok line [.symbol (atom ['m', 'a', 'p']) s.line]
          else if oldtok = char '(' then readBracket tonumber fuel n s tok line []
          else .error "Bad AST tree!"

/-- The cases of `'`, `,` and `@`. -/
def readPrefixed (tonumber : Atom → Option (BitVec 64)) :
    Nat → Int → Stream → Tok → Nat → Atom → Except String (Option Sexp × Int × Stream)
  | 0, _, _, _, _, _ => .error "stack overflow"
  | fuel + 1, n, s, tok, line, name => do
      let (sexp, n, s) ← readSexp tonumber fuel n s tok
      match sexp with
      | none => .ok (none, n, s)
      | some e => .ok (some (.sexp [.symbol name s.line, e] line), n, s)

/-- The cases of the brackets. -/
def readBracket (tonumber : Atom → Option (BitVec 64)) :
    Nat → Int → Stream → Tok → Nat → List Sexp → Except String (Option Sexp × Int × Stream)
  | 0, _, _, _, _, _ => .error "stack overflow"
  | fuel + 1, lv, s, tok, line, data => do
      let (data, n, s) ← readList tonumber fuel (lv + 1) s (some tok) data
      if n ≠ lv then readError "S-Expression is not closed!" s
      else .ok (some (.sexp data line), n, s)

end

/-- `read`, with room for every call that the text can lead to. -/
def read (tonumber : Atom → Option (BitVec 64)) (s : Stream) : Except String (Option Sexp) := do
  let (tok, s') ← nextToken tonumber s
  match tok with
  | none => .ok none
  | some tok => do
      let (sexp, _, _) ← readSexp tonumber (3 * s.text.length + 3) 0 s' tok
      .ok sexp

/-- `"(lambda (...) "` -/
def startPrefix : List Byte :=
  atom ['(', 'l', 'a', 'm', 'b', 'd', 'a', ' ', '(', '.', '.', '.', ')', ' ']

/-- What `start` reads of a source. -/
def readSource (tonumber : Atom → Option (BitVec 64)) (src : List Byte) :
    Except String (Option Sexp) :=
  read tonumber (.create src startPrefix [char ')'])

end Saurus
