import Saurus.Basis.Results
import Saurus.Read.Ends

/-!
# Lines of a text

A stream counts the line breaks that it hands out and takes back, and what is
put around a file has none. So the line of a stream is the one that has been
reached (`Stream.Onward`), each node has lines between that on which its text
begins and that on which it ends, and an error of the reader names the line
where it stopped (`readSource_lines`).
-/

namespace Saurus

open Basis

variable {tonumber : Atom → Option (BitVec 64)}

/-! ## Streams -/

/-- The number of line breaks. -/
def newlines (cs : List Byte) : Nat := cs.count (char '\n')

@[simp] theorem newlines_nil : newlines [] = 0 := rfl

theorem newlines_cons (c : Byte) (cs : List Byte) :
    newlines (c :: cs) = newlines [c] + newlines cs := by
  rw [← List.singleton_append]
  exact List.count_append

theorem newlines_of_notMem {cs : List Byte} (h : char '\n' ∉ cs) : newlines cs = 0 :=
  List.count_eq_zero_of_not_mem h

namespace Stream

variable {s s' s'' : Stream}

/-- The line on which the text ends. -/
def lastLine (s : Stream) : Nat := s.line + newlines s.text

/-- What was put around the file is on one line. -/
structure Counts (s : Stream) : Prop where
  pre : char '\n' ∉ s.pre
  post : char '\n' ∉ s.post

/-- `s'` is further on in the text of `s`. -/
structure Onward (s s' : Stream) : Prop where
  counts : s'.Counts
  line : s.line ≤ s'.line
  last : s'.lastLine = s.lastLine

theorem Onward.rfl (h : s.Counts) : s.Onward s := ⟨h, Nat.le_refl _, Eq.refl _⟩

theorem Onward.trans (h : s.Onward s') (h' : s'.Onward s'') : s.Onward s'' :=
  ⟨h'.counts, Nat.le_trans h.line h'.line, h'.last.trans h.last⟩

theorem Onward.line_le (h : s.Onward s') : s'.line ≤ s.lastLine := by
  rw [← h.last]
  exact Nat.le_add_right _ _

theorem lineAfter_eq (s : Stream) (ch : Byte) : s.lineAfter ch = s.line + newlines [ch] := by
  unfold lineAfter newlines
  rw [List.count_singleton]
  split_ifs with h <;> simp_all

/-- Reading counts what it takes. -/
theorem read_line {c : Option Byte} (hs : s.Counts) (h : s.read = (c, s')) :
    s'.Counts ∧ s'.line = s.line + newlines c.toList := by
  obtain ⟨cache, pre, file, post, line⟩ := s
  obtain ⟨hpre, hpost⟩ := hs
  dsimp only at hpre hpost
  rcases cache with _ | ch
  · rcases pre with _ | ⟨ch, pre⟩
    · rcases file with _ | ⟨ch, file⟩
      · rcases post with _ | ⟨ch, post⟩
        · cases h
          exact ⟨⟨hpre, hpost⟩, Eq.refl _⟩
        · cases h
          rw [List.mem_cons, not_or] at hpost
          refine ⟨⟨hpre, hpost.2⟩, ?_⟩
          change line = line + newlines [ch]
          rw [newlines_of_notMem (by simpa using hpost.1), Nat.add_zero]
      · cases h
        exact ⟨⟨hpre, hpost⟩, lineAfter_eq ..⟩
    · cases h
      rw [List.mem_cons, not_or] at hpre
      refine ⟨⟨hpre.2, hpost⟩, ?_⟩
      change line = line + newlines [ch]
      rw [newlines_of_notMem (by simpa using hpre.1), Nat.add_zero]
  · cases h
    exact ⟨⟨hpre, hpost⟩, lineAfter_eq ..⟩

theorem onward_read {c : Option Byte} (hs : s.Counts) (h : s.read = (c, s')) : s.Onward s' := by
  obtain ⟨hcounts, hline⟩ := read_line hs h
  refine ⟨hcounts, by omega, ?_⟩
  unfold lastLine
  cases c with
  | none =>
      obtain ⟨hs, hs'⟩ := read_none h
      rw [hs, hs', hline]
      exact Eq.refl _
  | some ch =>
      rw [read_some h, newlines_cons, hline]
      exact Nat.add_assoc ..

/-- A character that was read and taken back. -/
theorem onward_unread {ch : Byte} (hs : s.Counts) (h : s.read = (some ch, s')) :
    s.Onward (s'.unread ch) := by
  obtain ⟨hcounts, hline⟩ := read_line hs h
  have hback : (s'.unread ch).line = s.line := by
    change (if ch = char '\n' then s'.line - 1 else s'.line) = s.line
    rw [hline, Option.toList_some, newlines, List.count_singleton]
    split_ifs with hch <;> simp_all
  refine ⟨⟨hcounts.pre, hcounts.post⟩, Nat.le_of_eq hback.symm, ?_⟩
  rw [lastLine, hback, text_unread ch (cache_read h), ← read_some h, lastLine]

end Stream

/-- The lines from `a` to `b`. -/
def Between (a b n : Nat) : Prop := a ≤ n ∧ n ≤ b

/-- The message ends with a line that has `L`. -/
def NamesLine (L : Nat → Prop) (msg : String) : Prop :=
  ∃ text n, L n ∧ msg = text ++ " Line: " ++ toString n

theorem Sexp.Within.mono {L M : Nat → Prop} {e : Sexp} (h : e.Within L) (hLM : ∀ n, L n → M n) :
    e.Within M := fun n hn => hLM n (h n hn)

theorem NamesLine.mono {L M : Nat → Prop} {msg : String} (h : NamesLine L msg)
    (hLM : ∀ n, L n → M n) : NamesLine M msg := by
  obtain ⟨text, n, hn, hmsg⟩ := h
  exact ⟨text, n, hLM n hn, hmsg⟩

theorem Between.mono {a a' b b' n : Nat} (h : Between a b n) (ha : a' ≤ a) (hb : b ≤ b') :
    Between a' b' n := ⟨Nat.le_trans ha h.1, Nat.le_trans h.2 hb⟩

/-! ## Tokens -/

section Tokens

variable {s s' : Stream}

/-- An error of the reader, which names a line of the text that is left. -/
def Stream.Blamed (s : Stream) (msg : String) : Prop := NamesLine (Between s.line s.lastLine) msg

theorem Stream.Onward.blamed {msg : String} (h : s.Onward s') (hmsg : s'.Blamed msg) :
    s.Blamed msg := hmsg.mono fun _ hn => hn.mono h.line (Nat.le_of_eq h.last)

theorem gives_readError {α : Type} {P : α → Prop} {msg : String} (h : s.Onward s') :
    Gives P s.Blamed (readError msg s') := .error ⟨msg, s'.line, ⟨h.line, h.line_le⟩, rfl⟩

theorem onward_readComment (hs : s.Counts) : s.Onward (readComment s) := by
  fun_induction readComment s with
  | case1 s s' hread => exact Stream.onward_read hs hread
  | case2 s s' hread => exact Stream.onward_read hs hread
  | case3 s ch s' hread hch ih =>
      have h := Stream.onward_read hs hread
      exact h.trans (ih h.counts)

theorem onward_readSpace {c : Option Byte} (hs : s.Counts) (h : readSpace s = (c, s')) :
    s.Onward s' := by
  fun_induction readSpace s with
  | case1 s s1 hread =>
      cases h
      exact Stream.onward_read hs hread
  | case2 s ch s1 hread hspace ih =>
      have hon := Stream.onward_read hs hread
      exact hon.trans (ih hon.counts h)
  | case3 s ch s1 hread hspace =>
      cases h
      exact Stream.onward_read hs hread

theorem onward_readAtom {str : Atom} (hs : s.Counts) : s.Onward (readAtom s str).2 := by
  fun_induction readAtom s str with
  | case1 s str s1 hread => exact Stream.onward_read hs hread
  | case2 s str ch s1 hread hch ih =>
      have hon := Stream.onward_read hs hread
      exact hon.trans (ih hon.counts)
  | case3 s str ch s1 hread hch => exact Stream.onward_unread hs hread

theorem gives_readStringEsc {bound : Byte} (hs : s.Counts) :
    Gives (fun r => s.Onward r.2.2) s.Blamed (readStringEsc s bound) := by
  unfold readStringEsc
  split
  · rename_i s1 hread
    exact gives_readError (Stream.onward_read hs hread)
  · rename_i ch s1 hread
    have hon := Stream.onward_read hs hread
    split
    · exact .pure hon
    · split_ifs
      · split
        · rename_i s2 hread'
          exact gives_readError (hon.trans (Stream.onward_read hon.counts hread'))
        · rename_i s2 hread'
          exact .pure (hon.trans (Stream.onward_read hon.counts hread'))
      · exact gives_readError hon

theorem gives_readString {bound : Byte} {str : Atom} (hs : s.Counts) :
    Gives (fun r => s.Onward r.2) s.Blamed (readStringFrom s bound str) := by
  fun_induction readStringFrom s bound str with
  | case1 s bound str s1 hread => exact gives_readError (Stream.onward_read hs hread)
  | case2 s bound str s1 msg hesc hread =>
      have hon := Stream.onward_read hs hread
      exact .error (hon.blamed ((gives_readStringEsc hon.counts).of_error hesc))
  | case3 s bound str s1 c bound' s2 hesc hread ih =>
      have hon := Stream.onward_read hs hread
      have hon2 := hon.trans ((gives_readStringEsc hon.counts).of_ok hesc)
      exact (ih hon2.counts).mono (fun _ h => hon2.trans h) fun _ h => hon2.blamed h
  | case4 s bound str ch s1 hread hch hne ih =>
      have hon := Stream.onward_read hs hread
      exact (ih hon.counts).mono (fun _ h => hon.trans h) fun _ h => hon.blamed h
  | case5 s bound str ch s1 hread hch hend => exact .pure (Stream.onward_read hs hread)

/-- A token with lines from `a` to `b`. -/
def Tok.Between (a b : Nat) : Tok → Prop
  | .char _ => True
  | .node e => e.Within (Saurus.Between a b)

theorem Tok.Between.mono {a a' b b' : Nat} {tok : Tok} (h : tok.Between a b) (ha : a' ≤ a)
    (hb : b ≤ b') : tok.Between a' b' := by
  cases tok with
  | char ch => trivial
  | node e => exact Sexp.Within.mono h fun _ hn => hn.mono ha hb

/-- A node of a token is on the line on which the token ends. -/
theorem within_wordNode {L : Nat → Prop} {str : Atom} {line : Nat} (h : L line) :
    (wordNode tonumber str line).Within L := by
  unfold wordNode
  split
  · exact within_number.mpr h
  · exact within_symbol.mpr h

theorem within_stringNode {L : Nat → Prop} {str : Atom} {line : Nat} (h : L line) :
    (stringNode str line).Within L := by
  refine within_sexp.mpr ⟨h, fun e he => ?_⟩
  simp only [List.mem_cons, List.not_mem_nil, or_false] at he
  rcases he with rfl | rfl <;> exact within_symbol.mpr h

theorem gives_nextToken (hs : s.Counts) :
    Gives (fun r => s.Onward r.2 ∧ ∀ tok, r.1 = some tok → tok.Between s.line r.2.line) s.Blamed
      (nextToken tonumber s) := by
  fun_induction nextToken tonumber s with
  | case1 s s1 hspace => exact .pure ⟨onward_readSpace hs hspace, fun _ h => by cases h⟩
  | case2 s s1 hspace ih =>
      have hon := onward_readSpace hs hspace
      have hon2 := hon.trans (onward_readComment hon.counts)
      refine (ih hon2.counts).mono (fun r h => ⟨hon2.trans h.1, fun tok htok => ?_⟩)
        fun _ h => hon2.blamed h
      exact (h.2 tok htok).mono hon2.line (Nat.le_refl _)
  | case3 s s1 hspace hch =>
      have hon := onward_readSpace hs hspace
      refine ((gives_readString hon.counts).mono (fun _ h => hon.trans h)
        fun _ h => hon.blamed h).bind fun r _ hr => .pure ⟨hr, fun tok htok => ?_⟩
      cases htok
      exact within_stringNode ⟨hr.line, Nat.le_refl _⟩
  | case4 s ch s1 hspace =>
      refine .pure ⟨onward_readSpace hs hspace, fun tok htok => ?_⟩
      cases htok
      trivial
  | case5 s ch s1 hspace _ _ _ str s2 hatom =>
      have hon := onward_readSpace hs hspace
      have hword : s1.Onward (readAtom s1 []).2 := onward_readAtom hon.counts
      rw [hatom] at hword
      have hon2 := hon.trans hword
      refine .pure ⟨hon2, fun tok htok => ?_⟩
      cases htok
      exact within_wordNode ⟨hon2.line, Nat.le_refl _⟩

end Tokens

/-! ## Expressions -/

section Expressions

variable {s s' : Stream}

/-- An error of `read`: it names a line, or it is one of those that name none. -/
def Stream.Failed (s : Stream) (msg : String) : Prop :=
  s.Blamed msg ∨ msg = "Bad AST tree!" ∨ msg = noRoom

theorem Stream.Onward.failed {msg : String} (h : s.Onward s') (hmsg : s'.Failed msg) :
    s.Failed msg := hmsg.imp_left h.blamed

/-- What is read from `s` on, with nodes that begin on line `a` or later. -/
structure Reads (s : Stream) (a : Nat) (es : List Sexp) (s' : Stream) : Prop where
  onward : s.Onward s'
  within : ∀ e ∈ es, e.Within (Between a s'.line)

theorem Reads.after {s0 : Stream} {a : Nat} {es : List Sexp} (h0 : s0.Onward s)
    (h : Reads s a es s') : Reads s0 a es s' := ⟨h0.trans h.onward, h.within⟩

theorem within_later {a b b' : Nat} {es : List Sexp} (h : ∀ e ∈ es, e.Within (Between a b))
    (hb : b ≤ b') : ∀ e ∈ es, e.Within (Between a b') :=
  fun e he => (h e he).mono fun _ hn => hn.mono (Nat.le_refl _) hb

/-- The nodes that the functions of the reader make from a stream on which
line `a` has been reached. -/
structure KeepsLines (tonumber : Atom → Option (BitVec 64)) (fuel : Nat) : Prop where
  list : ∀ {a n s tok data}, s.Counts → a ≤ s.line → (∀ t, tok = some t → t.Between a s.line) →
    (∀ e ∈ data, e.Within (Between a s.line)) →
    Gives (fun r => Reads s a r.1 r.2.2) s.Failed (readList tonumber fuel n s tok data)
  sexp : ∀ {a n s tok}, s.Counts → a ≤ s.line → tok.Between a s.line →
    Gives (fun r => Reads s a r.1.toList r.2.2) s.Failed (readSexp tonumber fuel n s tok)
  prefixed : ∀ {a n s tok line name}, s.Counts → Between a s.line line → tok.Between a s.line →
    Gives (fun r => Reads s a r.1.toList r.2.2) s.Failed
      (readPrefixed tonumber fuel n s tok line name)
  bracket : ∀ {a n s tok line data}, s.Counts → Between a s.line line → tok.Between a s.line →
    (∀ e ∈ data, e.Within (Between a s.line)) →
    Gives (fun r => Reads s a r.1.toList r.2.2) s.Failed
      (readBracket tonumber fuel n s tok line data)

variable (tonumber) in
theorem keepsLines (fuel : Nat) : KeepsLines tonumber fuel := by
  induction fuel with
  | zero =>
      exact ⟨fun _ _ _ _ => .inr (.inr rfl), fun _ _ _ => .inr (.inr rfl),
        fun _ _ _ => .inr (.inr rfl), fun _ _ _ _ => .inr (.inr rfl)⟩
  | succ fuel ih =>
      constructor
      case list =>
        intro a n s tok data hs ha htok hdata
        cases tok with
        | none => exact .pure ⟨.rfl hs, hdata⟩
        | some tok =>
            rw [readList_some]
            split_ifs
            · exact .pure ⟨.rfl hs, hdata⟩
            · refine (ih.sexp hs ha (htok tok rfl)).bind fun r _ hx => ?_
              obtain ⟨x, n1, s1⟩ := r
              have hdata1 := within_later hdata hx.onward.line
              cases x with
              | none => exact .pure ⟨hx.onward, hdata1⟩
              | some e =>
                  have ha1 := Nat.le_trans ha hx.onward.line
                  refine ((gives_nextToken hx.onward.counts).mono (fun _ h => h)
                    fun _ h => hx.onward.failed (.inl h)).bind fun r _ ht => ?_
                  obtain ⟨tok', s2⟩ := r
                  obtain ⟨hon, ht⟩ := ht
                  refine (ih.list hon.counts (Nat.le_trans ha1 hon.line)
                    (fun t h => (ht t h).mono ha1 (Nat.le_refl _)) ?_).mono
                    (fun _ h => h.after (hx.onward.trans hon))
                    fun _ h => hx.onward.failed (hon.failed h)
                  refine within_later (fun y hy => ?_) hon.line
                  rcases List.mem_append.mp hy with hy | hy
                  · exact hdata1 y hy
                  · exact hx.within y (by simpa using hy)
      case sexp =>
        intro a n s tok hs ha htok
        cases tok with
        | node e =>
            refine .pure ⟨.rfl hs, fun y hy => ?_⟩
            cases List.mem_singleton.mp hy
            exact htok
        | char ch =>
            rw [readSexp]
            refine ((gives_nextToken hs).mono (fun _ h => h) fun _ h => .inl h).bind
              fun r _ ht => ?_
            obtain ⟨tok, s1⟩ := r
            obtain ⟨hon, ht⟩ := ht
            cases tok with
            | none => exact .pure ⟨hon, fun _ h => by cases h⟩
            | some tok =>
                have ht1 := (ht tok rfl).mono ha (Nat.le_refl _)
                have hline : Between a s1.line s.line := ⟨ha, hon.line⟩
                have hsym : ∀ (name : Atom), ∀ e ∈ [Sexp.symbol name s1.line],
                    e.Within (Between a s1.line) := fun name e he => by
                  cases List.mem_singleton.mp he
                  exact within_symbol.mpr ⟨Nat.le_trans ha hon.line, Nat.le_refl _⟩
                have hfail : ∀ msg, s1.Failed msg → s.Failed msg := fun _ h => hon.failed h
                dsimp only
                split_ifs
                · exact (ih.prefixed hon.counts hline ht1).mono (fun _ h => h.after hon) hfail
                · exact (ih.prefixed hon.counts hline ht1).mono (fun _ h => h.after hon) hfail
                · exact (ih.prefixed hon.counts hline ht1).mono (fun _ h => h.after hon) hfail
                · exact (ih.bracket hon.counts hline ht1 (hsym _)).mono (fun _ h => h.after hon)
                    hfail
                · exact (ih.bracket hon.counts hline ht1 (hsym _)).mono (fun _ h => h.after hon)
                    hfail
                · exact (ih.bracket hon.counts hline ht1 fun _ h => by cases h).mono
                    (fun _ h => h.after hon) hfail
                · exact .error (.inr (.inl rfl))
      case prefixed =>
        intro a n s tok line name hs hline htok
        rw [readPrefixed]
        refine (ih.sexp hs (Nat.le_trans hline.1 hline.2) htok).bind fun r _ hx => ?_
        obtain ⟨x, n1, s1⟩ := r
        cases x with
        | none => exact .pure ⟨hx.onward, fun _ h => by cases h⟩
        | some e =>
            have hline1 : Between a s1.line line := hline.mono (Nat.le_refl _) hx.onward.line
            refine .pure ⟨hx.onward, fun y hy => ?_⟩
            cases List.mem_singleton.mp hy
            refine within_sexp.mpr ⟨hline1, fun z hz => ?_⟩
            rcases List.mem_cons.mp hz with rfl | hz
            · exact within_symbol.mpr ⟨Nat.le_trans hline1.1 hline1.2, Nat.le_refl _⟩
            · exact hx.within z hz
      case bracket =>
        intro a n s tok line data hs hline htok hdata
        rw [readBracket]
        refine (ih.list hs (Nat.le_trans hline.1 hline.2) (fun t h => by cases h; exact htok)
          hdata).bind fun r _ hx => ?_
        obtain ⟨data', n1, s1⟩ := r
        dsimp only
        split_ifs
        · exact (gives_readError hx.onward).mono (fun _ h => h) fun _ h => .inl h
        · refine .pure ⟨hx.onward, fun y hy => ?_⟩
          cases List.mem_singleton.mp hy
          exact within_sexp.mpr ⟨hline.mono (Nat.le_refl _) hx.onward.line, hx.within⟩

variable (tonumber) in
/-- The nodes that `read` makes are on lines of the text. -/
theorem gives_read (hs : s.Counts) :
    Gives (fun r => ∀ e, r = some e → e.Within (Between s.line s.lastLine)) s.Failed
      (read tonumber s) := by
  refine ((gives_nextToken hs).mono (fun _ h => h) fun _ h => .inl h).bind
    fun r _ ht => ?_
  obtain ⟨tok, s1⟩ := r
  obtain ⟨hon, ht⟩ := ht
  cases tok with
  | none => exact .pure fun _ h => by cases h
  | some tok =>
      refine (((keepsLines tonumber _).sexp hon.counts hon.line (ht tok rfl)).mono
        (fun _ h => h.after hon) fun _ h => hon.failed h).bind fun r _ hx => .pure ?_
      obtain ⟨x, n, s2⟩ := r
      intro e he
      cases he
      exact (hx.within e (List.mem_singleton_self e)).mono
        fun _ hn => hn.mono (Nat.le_refl _) hx.onward.line_le

/-- The lines of a source. -/
def IsLineOf (src : List Byte) (n : Nat) : Prop := Between 1 (1 + newlines src) n

variable (tonumber) in
/-- Whatever is read of a source has its lines, and so has every error of the
reader but one, which names none. -/
theorem readSource_lines (src : List Byte) :
    Gives (fun r => ∀ e, r = some e → e.Within (IsLineOf src))
      (fun msg => NamesLine (IsLineOf src) msg ∨ msg = "Bad AST tree!")
      (readSource tonumber src) := by
  have hs : (Stream.create src startPrefix [char ')']).Counts :=
    ⟨show char '\n' ∉ startPrefix by decide, show char '\n' ∉ [char ')'] by decide⟩
  have hlast : (Stream.create src startPrefix [char ')']).lastLine = 1 + newlines src := by
    rw [Stream.lastLine, Stream.text_create, newlines, List.count_append, List.count_append]
    exact congrArg (1 + ·) (by simp [newlines, startPrefix, char, atom])
  have h := gives_read tonumber hs
  unfold Stream.Failed Stream.Blamed at h
  rw [hlast] at h
  change Gives _ _ (read tonumber _)
  cases hread : read tonumber (Stream.create src startPrefix [char ')']) with
  | ok r => exact h.of_ok hread
  | error msg =>
      rcases h.of_error hread with h | h | h
      · exact .inl h
      · exact .inr h
      · exact absurd (hread.trans (congrArg _ h)) (read_ne_noRoom _)

end Expressions

end Saurus
