import Saurus.Gen.Literals
import Saurus.Read.Tokens
import Saurus.Seq

/-!
# From values back to syntax trees

What a macro returns is turned into Lua values by `push_sexp`, a sequence
into pairs of its first element and its rest, and `recreate_ast` makes a
syntax tree of them. `list_to_vec` collects the elements of a sequence in
their order and then copies them from the last to the first, so every list
comes back reversed (`rebuilds_mirror`).
-/

namespace Saurus

open Basis

/-! ## Lua values -/

/-- What `push_sexp` makes of a value: `nil_substitute`, and tables with the
fields 1 and 2. -/
inductive LuaValue where
  | nilSubstitute
  | number (n : BitVec 64)
  | boolean (b : Bool)
  | string (s : Atom)
  | table (first rest : LuaValue)

/-- What `lua_pushlstring` copies of a string: `size - 1` bytes. The size is
unsigned, so of a string without bytes 2^32 - 1 are read, far beyond it. -/
def luaString : List Byte → Outcome (List Byte)
  | [] => .fault
  | b :: str => .ok (b :: str).dropLast

theorem luaString_concat (s : List Byte) (b : Byte) : luaString (s ++ [b]) = .ok s := by
  cases s with
  | nil => rfl
  | cons c s =>
      change Outcome.ok ((c :: s) ++ [b]).dropLast = _
      rw [List.dropLast_concat]

/-- `push_sexp` within `fuel` nested calls; none where it returns the type of
a value it has no Lua value for. -/
def pushSexp (junk : Nat → BitVec 64) : Nat → World → Value → Outcome (World × Option LuaValue)
  | 0, _, _ => .fault
  | fuel + 1, w, v =>
      match v.type with
      | .nil => pure (w, some .nilSubstitute)
      | .number => pure (w, some (.number v.obj))
      | .boolean => pure (w, some (.boolean (objB v)))
      | .string => do
          match ← w.object v.addr with
          | .string _ str => do pure (w, some (.string (← luaString str)))
          | _ => .fault
      | .seq | .itSeq | .cellSeq => do
          let first ← seqFirst w v
          match ← pushSexp junk fuel w first with
          | (w, none) => pure (w, none)
          | (w, some x) => do
              let (w, rest) ← seqRest junk w v
              match ← pushSexp junk fuel w rest with
              | (w, none) => pure (w, none)
              | (w, some y) => pure (w, some (.table x y))
      | _ => pure (w, none)

def invalidExpansion (name : Atom) (line : Nat) : String :=
  "Invalid expansion result from macro '" ++ Atom.text name ++ "'. Line: " ++ toString line

mutual

/-- `recreate_ast` -/
def recreateAst (name : Atom) (line : Nat) : LuaValue → Except String Sexp
  | .nilSubstitute => .ok (.symbol nilAtom line)
  | .number n => .ok (.number n line)
  | .string s => .ok (.symbol s line)
  | .boolean b => .ok (.symbol (Literal.booleanAtom b) line)
  | .table first rest => do
      let x ← recreateAst name line first
      let vec ← listToVec name line rest
      -- `for i = #vec, 0, -1`, and there is no `vec[0]`
      .ok (.sexp (x :: vec).reverse line)

/-- The first loop of `list_to_vec`, from the second element on. Indexing a
string is no error in Lua and gives nil. -/
def listToVec (name : Atom) (line : Nat) : LuaValue → Except String (List Sexp)
  | .nilSubstitute => .ok []
  | .table first rest => do
      let x ← recreateAst name line first
      let vec ← listToVec name line rest
      .ok (x :: vec)
  | .string _ => .error (invalidExpansion name line)
  | .number _ => .error "attempt to index local 'sexp' (a number value)"
  | .boolean _ => .error "attempt to index local 'sexp' (a boolean value)"

end

def noMacroMsg (line : Nat) : String := "Could not generate macro!" ++ " Line: " ++ toString line

/-- What `gen_macro_expansion` makes of the value `su_load_call` returned; of
none, which is Lua's nil, and of `false` it takes there to be no macro. -/
def macroResult (name : Atom) (line : Nat) : Option LuaValue → Except String Sexp
  | none => .error (noMacroMsg line)
  | some (.boolean false) => .error (noMacroMsg line)
  | some x => recreateAst name line x

theorem noMacroMsg_head (line : Nat) : (noMacroMsg line).toList.head? = some 'C' :=
  head?_append_left (head?_append_left (by decide) _) _

theorem invalidExpansion_head (name : Atom) (line : Nat) :
    (invalidExpansion name line).toList.head? = some 'I' :=
  head?_append_left (head?_append_left (head?_append_left (by decide) _) _) _

mutual

/-- A value that is not taken for a macro fails with another message. -/
theorem recreateAst_ne_noMacro (name : Atom) (line : Nat) : ∀ x : LuaValue,
    recreateAst name line x ≠ .error (noMacroMsg line)
  | .nilSubstitute, h | .number _, h | .string _, h | .boolean _, h => by
      rw [recreateAst] at h
      cases h
  | .table first rest, h => by
      rw [recreateAst] at h
      cases hx : recreateAst name line first with
      | error msg =>
          rw [hx] at h
          cases h
          exact recreateAst_ne_noMacro name line first hx
      | ok x =>
          rw [hx] at h
          cases hvec : listToVec name line rest with
          | error msg =>
              rw [hvec] at h
              cases h
              exact listToVec_ne_noMacro name line rest hvec
          | ok vec =>
              rw [hvec] at h
              cases h

theorem listToVec_ne_noMacro (name : Atom) (line : Nat) : ∀ x : LuaValue,
    listToVec name line x ≠ .error (noMacroMsg line)
  | .nilSubstitute, h => by
      rw [listToVec] at h
      cases h
  | .string _, h => by
      rw [listToVec] at h
      have hhead := congrArg (·.toList.head?) (Except.error.inj h)
      rw [noMacroMsg_head, invalidExpansion_head] at hhead
      cases hhead
  | .number _, h | .boolean _, h => by
      rw [listToVec] at h
      have hhead := congrArg (·.toList.head?) (Except.error.inj h)
      rw [noMacroMsg_head] at hhead
      cases hhead
  | .table first rest, h => by
      rw [listToVec] at h
      cases hx : recreateAst name line first with
      | error msg =>
          rw [hx] at h
          cases h
          exact recreateAst_ne_noMacro name line first hx
      | ok x =>
          rw [hx] at h
          cases hvec : listToVec name line rest with
          | error msg =>
              rw [hvec] at h
              cases h
              exact listToVec_ne_noMacro name line rest hvec
          | ok vec =>
              rw [hvec] at h
              cases h

end

/-! ## Values of data -/

namespace Datum

mutual

/-- Every list of the datum, from the last element to the first. -/
def mirror : Datum → Datum
  | .number n => .number n
  | .symbol a => .symbol a
  | .list ds => .list (mirrorAll ds).reverse

def mirrorAll : List Datum → List Datum
  | [] => []
  | d :: ds => d.mirror :: mirrorAll ds

end

/-- The literal that a quoted symbol is. -/
def symbolLiteral (a : Atom) : Literal := if a = nilAtom then .nil else .string a

mutual

/-- The value is the datum: numbers and strings, nil for the symbol `nil`, and
cells in the order of the elements. -/
def Shows (w : World) : Datum → Value → Prop
  | .number n, v => (Literal.number n).Denotes w v
  | .symbol a, v => (symbolLiteral a).Denotes w v
  | .list ds, v => ds ≠ [] ∧ ShowsAll w ds v

def ShowsAll (w : World) : List Datum → Value → Prop
  | [], v => v.type = .nil
  | d :: ds, v => v.type = .cellSeq ∧ ∃ first rest, w.object v.addr = .ok (.cell first rest)
      ∧ Shows w d first ∧ ShowsAll w ds rest

end

mutual

/-- The Lua value of the datum. -/
def lua : Datum → LuaValue
  | .number n => .number n
  | .symbol a => if a = nilAtom then .nilSubstitute else .string a
  | .list ds => luaAll ds

def luaAll : List Datum → LuaValue
  | [] => .nilSubstitute
  | d :: ds => .table d.lua (luaAll ds)

end

end Datum

theorem Literal.Denotes.extends {lit : Literal} {w w' : World} {v : Value}
    (h : lit.Denotes w v) (hw : w.Extends w') : lit.Denotes w' v := by
  cases lit with
  | nil | boolean | number => exact h
  | string s =>
      obtain ⟨htype, hash, hobj⟩ := h
      exact ⟨htype, hash, hw _ _ hobj⟩

namespace Datum

variable {w w' : World}

mutual

theorem Shows.extends (hw : w.Extends w') : ∀ {d : Datum} {v : Value}, d.Shows w v → d.Shows w' v
  | .number _, _, h => by
      unfold Shows at h ⊢
      exact h.extends hw
  | .symbol _, _, h => by
      unfold Shows at h ⊢
      exact h.extends hw
  | .list ds, _, h => ⟨h.1, showsAll_extends hw h.2⟩

theorem showsAll_extends (hw : w.Extends w') : ∀ {ds : List Datum} {v : Value},
    ShowsAll w ds v → ShowsAll w' ds v
  | [], _, h => h
  | _ :: _, _, ⟨htype, first, rest, hobj, hfirst, hrest⟩ =>
      ⟨htype, first, rest, hw _ _ hobj, hfirst.extends hw, showsAll_extends hw hrest⟩

end

variable {junk : Nat → BitVec 64}

/-- Given room for its calls, `push_sexp` makes `x` of the value and leaves
everything as it is. -/
def Pushes (junk : Nat → BitVec 64) (w : World) (v : Value) (x : LuaValue) : Prop :=
  ∃ n, ∀ fuel, n ≤ fuel → pushSexp junk fuel w v = .ok (w, some x)

theorem Pushes.of_step {v : Value} {x : LuaValue}
    (h : ∀ fuel, pushSexp junk (fuel + 1) w v = .ok (w, some x)) : Pushes junk w v x := by
  refine ⟨1, fun fuel hfuel => ?_⟩
  obtain ⟨fuel, rfl⟩ := Nat.exists_eq_add_of_le' hfuel
  exact h fuel

theorem pushes_nil {v : Value} (h : v.type = .nil) : Pushes junk w v .nilSubstitute :=
  .of_step fun fuel => by
    rw [pushSexp, h]
    rfl

theorem pushes_cell {v first rest : Value} {x y : LuaValue} (htype : v.type = .cellSeq)
    (hobj : w.object v.addr = .ok (.cell first rest)) (hx : Pushes junk w first x)
    (hy : Pushes junk w rest y) : Pushes junk w v (.table x y) := by
  obtain ⟨m, hx⟩ := hx
  obtain ⟨n, hy⟩ := hy
  refine ⟨max m n + 1, fun fuel hfuel => ?_⟩
  obtain ⟨fuel, rfl⟩ := Nat.exists_eq_add_of_le' hfuel
  have hx := hx (fuel + max m n) (by omega)
  have hy := hy (fuel + max m n) (by omega)
  rw [← Nat.add_assoc, pushSexp, htype]
  simp only [seqFirst, seqRest, hobj, Outcome.ok_bind, Outcome.pure_eq, hx, hy]

mutual

theorem Shows.pushes : ∀ {d : Datum} {v : Value}, d.Shows w v → Pushes junk w v d.lua
  | .number n, v, ⟨htype, hobj⟩ => .of_step fun fuel => by
      rw [pushSexp, htype, ← hobj]
      rfl
  | .symbol a, v, h => by
      unfold Shows symbolLiteral at h
      rw [lua]
      split
      · rename_i ha
        rw [if_pos ha] at h
        exact pushes_nil h
      · rename_i ha
        rw [if_neg ha] at h
        obtain ⟨htype, hash, hobj⟩ := h
        refine .of_step fun fuel => ?_
        rw [pushSexp, htype]
        simp only [hobj, Outcome.ok_bind, luaString_concat]
        rfl
  | .list ds, v, h => showsAll_pushes h.2

theorem showsAll_pushes : ∀ {ds : List Datum} {v : Value}, ShowsAll w ds v →
    Pushes junk w v (luaAll ds)
  | [], _, h => pushes_nil h
  | _ :: _, _, ⟨htype, _, _, hobj, hfirst, hrest⟩ =>
      pushes_cell htype hobj hfirst.pushes (showsAll_pushes hrest)

end

/-! ## Rebuilding -/

mutual

theorem recreateAst_lua (name : Atom) (line : Nat) : ∀ {d : Datum} {v : Value}, d.Shows w v →
    ∃ e, recreateAst name line d.lua = .ok e ∧ e.datum = d.mirror
  | .number n, _, _ => ⟨_, rfl, rfl⟩
  | .symbol a, _, _ => by
      rw [lua]
      split
      · rename_i ha
        exact ⟨_, rfl, by rw [ha]; rfl⟩
      · exact ⟨_, rfl, rfl⟩
  | .list [], _, h => absurd rfl h.1
  | .list (d :: ds), _, ⟨_, _, _, _, _, hfirst, hrest⟩ => by
      obtain ⟨e, he, hdatum⟩ := recreateAst_lua name line hfirst
      obtain ⟨es, hes, hdata⟩ := listToVec_lua name line hrest
      refine ⟨.sexp (e :: es).reverse line, ?_, ?_⟩
      · rw [lua, luaAll, recreateAst, he, hes]
        rfl
      · rw [Sexp.datum, data_eq_map, List.map_reverse, List.map_cons, hdatum, hdata]
        rfl

theorem listToVec_lua (name : Atom) (line : Nat) : ∀ {ds : List Datum} {v : Value},
    ShowsAll w ds v → ∃ es, listToVec name line (luaAll ds) = .ok es
      ∧ es.map Sexp.datum = mirrorAll ds
  | [], _, _ => ⟨[], rfl, rfl⟩
  | d :: ds, _, ⟨_, _, _, _, hfirst, hrest⟩ => by
      obtain ⟨e, he, hdatum⟩ := recreateAst_lua name line hfirst
      obtain ⟨es, hes, hdata⟩ := listToVec_lua name line hrest
      refine ⟨e :: es, ?_, ?_⟩
      · rw [luaAll, listToVec, he, hes]
        rfl
      · rw [List.map_cons, hdatum, hdata, mirrorAll]

end

end Datum

/-- Given room for its calls, the expansion of a macro that returned `v` is
`d` up to its lines. -/
def Rebuilds (junk : Nat → BitVec 64) (w : World) (v : Value) (name : Atom) (line : Nat)
    (d : Datum) : Prop :=
  ∃ n, ∀ fuel, n ≤ fuel → ∃ w' x e, pushSexp junk fuel w v = .ok (w', some x)
    ∧ recreateAst name line x = .ok e ∧ e.datum = d

theorem Rebuilds.unique {junk : Nat → BitVec 64} {w : World} {v : Value} {name : Atom} {line : Nat}
    {d d' : Datum} (h : Rebuilds junk w v name line d) (h' : Rebuilds junk w v name line d') :
    d = d' := by
  obtain ⟨m, h⟩ := h
  obtain ⟨n, h'⟩ := h'
  obtain ⟨w1, x, e, hpush, hast, rfl⟩ := h (max m n) (Nat.le_max_left ..)
  obtain ⟨w2, y, e', hpush', hast', rfl⟩ := h' (max m n) (Nat.le_max_right ..)
  cases hpush.symm.trans hpush'
  cases hast.symm.trans hast'
  rfl

/-- **Every list comes back reversed.** A value that is a datum is rebuilt as
the mirror of it. -/
theorem rebuilds_mirror {junk : Nat → BitVec 64} {w : World} {v : Value} {d : Datum}
    (h : d.Shows w v) (name : Atom) (line : Nat) : Rebuilds junk w v name line d.mirror := by
  obtain ⟨n, hpush⟩ : Datum.Pushes junk w v d.lua := h.pushes
  obtain ⟨e, he, hdatum⟩ := Datum.recreateAst_lua name line h
  exact ⟨n, fun fuel hfuel => ⟨w, d.lua, e, hpush fuel hfuel, he, hdatum⟩⟩

end Saurus
