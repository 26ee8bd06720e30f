import Saurus.Gen.Compile
import Saurus.Gen.Effects
import Saurus.Macro.Rebuild
import Saurus.Read.Whole

/-!
# Sessions of the compiler

`macros` and `in_macro_world` are globals that outlive a call of `entry`, and
an error leaves `entry` from wherever the generator is: what had been done by
then stays done. So the effects here keep their state with an error.

The same generator is run once more, guarded: it stops where it would go on
with what `entry` does not take back, a macro registered or the macro world
entered for good. A call of `entry` that fails leaves the compiler as it was
exactly when the guarded run does not stop.
-/

namespace Saurus

open Basis Basis.Codec

/-! ## Effects that keep the state -/

/-- The globals of the compiler during a call of `entry`: those of the
generator, and what `macro_state` has been given to load so far. -/
structure CompState extends GenState where
  inMacroWorld : Bool
  loads : List (List Byte)

/-- An error with its message, or without one where a guarded run stops. -/
abbrev CompM (α : Type) : Type := ExceptT (Option String) (StateM CompState) α

/-- The surroundings of the compiler: `tonumber`, `su_load_call` on the
`macro_state` of the call, and what becomes of the macros there are when
`gen_macro` turns a form into a `lambda` where it stands. A form in the
`lambda` of another macro is a part of that macro. -/
structure CompEnv where
  tonumber : Atom → Option (BitVec 64)
  loadCall : List (List Byte) → List Byte → Except String (Option LuaValue)
  turn : List (Atom × Sexp) → List (Atom × Sexp)
  turn_names : ∀ macros, (turn macros).map Prod.fst = macros.map Prod.fst

/-- An error with a message. -/
def raiseError {α : Type} (msg : String) : CompM α := throw (some msg)

/-- A piece of the generator, run in the state there is. -/
def leafM {α : Type} (c : GenM α) : CompM α := do
  let st ← get
  match c st.toGenState with
  | .ok (a, gen) => do
      set { st with toGenState := gen }
      pure a
  | .error msg => raiseError msg

/-- `writebin` runs out of memory with a string that is too long. -/
def ofOutcome {α : Type} : Outcome α → CompM α
  | .ok a => pure a
  | .raise msg => raiseError msg
  | .fault => raiseError "Out of memory!"

def ofExcept {α : Type} : Except String α → CompM α
  | .ok a => pure a
  | .error msg => raiseError msg

/-- `x`, but a guarded run stops where `x` has an error. -/
def stopping {α : Type} (guarded : Bool) (x : CompM α) : CompM α :=
  if guarded then tryCatch x fun _ => throw none else x

/-! ## Macros -/

/-- `gen_macro` -/
def defineMacro (env : CompEnv) (guarded : Bool) (data : List Sexp) (line : Nat) : CompM Unit := do
  let older := (← get).macros
  leafM (genMacro data line)
  modify fun st => { st with macros := env.turn older ++ st.macros.drop older.length }
  if guarded then throw none

/-- The program `gen_macro_expansion` makes of a call:
`(lambda ... (macro (quote arg) ...))`. -/
def expansionCode (macroForm : Sexp) (args : List Sexp) (line : Nat) : Sexp :=
  .sexp [.symbol (atom ['l', 'a', 'm', 'b', 'd', 'a']) line, .symbol (atom ['.', '.', '.']) line,
    .sexp (macroForm :: args.map fun v =>
      .sexp [.symbol (atom ['q', 'u', 'o', 't', 'e']) line, v] line) line] line

/-- Pieces of the generator. There is one table of special forms, and of the
rest of `env` only `optTail` is read. -/
def leaves : GenLeaves CompM := ⟨sourceEnv true true noMacros, leafM⟩

/-- The code of an expansion, compiled in the macro world. -/
def compileExpansion (gen : GenIn CompM) (name : Atom) (code : Sexp) : CompM (List Byte) := do
  modify fun st => { st with inMacroWorld := true }
  let func ← leaves.genSexp gen code
  ofOutcome (compile func (some name))

/-- `gen_macro_expansion` with the bytes of the compiled code, `func` being
the function that goes on. -/
def runExpansion (env : CompEnv) (func : FuncTable) (name : Atom) (line : Nat)
    (bytes : List Byte) : CompM Sexp := do
  modify fun st => { st with inMacroWorld := false, func := func }
  let loads := (← get).loads
  modify fun st => { st with loads := loads ++ [bytes] }
  let sexp ← ofExcept (env.loadCall loads bytes)
  ofExcept (macroResult name line sexp)

/-- `ismacro` and `gen_macro_expansion` -/
def expandMacro (env : CompEnv) (guarded : Bool) (gen : GenIn CompM) (data : List Sexp)
    (line : Nat) : CompM (Option Sexp) := do
  let st ← get
  match isMacro (sourceEnv true st.inMacroWorld noMacros) st.macros data with
  | none => pure none
  | some name =>
      match st.macros.lookup name with
      | none => pure none
      | some macroForm => do
          let bytes ← stopping guarded
            (compileExpansion gen name (expansionCode macroForm data.tail line))
          some <$> runExpansion env st.func name line bytes

def compOps (env : CompEnv) (guarded : Bool) : GenOps CompM where
  toGenLeaves := leaves
  define := defineMacro env guarded
  expand := expandMacro env guarded

/-! ## Calls of `entry` -/

/-- A source and the name of its destination, if there is one. Without
`text` the source cannot be opened, without `writable` the destination. -/
structure Source where
  text : Option (List Byte)
  dest : Option (List Byte)
  writable : Bool

/-- `start`, with room for `depth` nested calls of `gen`. -/
def start (env : CompEnv) (guarded : Bool) (depth : Nat) (src : Source) : CompM (List Byte) := do
  match src.text with
  | none => raiseError "Can't create stream from type: nil"
  | some text =>
      match ← ofExcept (readSource env.tonumber text) with
      | none => raiseError "attempt to index local 'sexp' (a nil value)"
      | some ast => do
          let tree ← leaves.genSexp ((compOps env guarded).gen depth) ast
          let bytes ← ofOutcome (compile tree src.dest)
          if src.dest.isSome && !src.writable then
            raiseError "attempt to index local 'output' (a nil value)"
          else pure bytes

/-- What a call of `entry` leaves to the next one. -/
structure Compiler where
  macros : List (Atom × Sexp)
  inMacroWorld : Bool

/-- The state in which `start` is called. -/
def Compiler.opened (c : Compiler) : CompState := ⟨⟨{}, c.macros, []⟩, c.inMacroWorld, []⟩

/-- `entry`: what is written, or the message of the error. -/
def entry (env : CompEnv) (depth : Nat) (c : Compiler) (src : Source) :
    Except String (List Byte) × Compiler :=
  let (r, st) := start env false depth src c.opened
  (r.mapError fun msg => msg.getD "", ⟨st.macros, st.inMacroWorld⟩)

/-- A call of `entry`. Each has its own surroundings: which forms two macros
share is no part of `macros`. -/
structure Call where
  env : CompEnv
  src : Source

/-- Calls of `entry` one after the other. -/
def session (depth : Nat) :
    Compiler → List Call → List (Except String (List Byte)) × Compiler
  | c, [] => ([], c)
  | c, call :: calls =>
      let (r, c) := entry call.env depth c call.src
      let (rs, c) := session depth c calls
      (r :: rs, c)

/-- The guarded run of a source comes to its end, or to an error with a
message. -/
def Settled (env : CompEnv) (depth : Nat) (c : Compiler) (src : Source) : Prop :=
  (start env true depth src c.opened).1 ≠ .error none

instance {env : CompEnv} {depth : Nat} {c : Compiler} {src : Source} :
    Decidable (Settled env depth c src) :=
  match h : (start env true depth src c.opened).1 with
  | .error none => isFalse fun hs => hs h
  | .error (some _) => isTrue fun hs => nomatch h.symm.trans hs
  | .ok _ => isTrue fun hs => nomatch h.symm.trans hs

/-- The calls that fail are settled. -/
def FailuresSettled (depth : Nat) : Compiler → List Call → Prop
  | _, [] => True
  | c, call :: calls =>
      ((entry call.env depth c call.src).1.isOk = false → Settled call.env depth c call.src)
        ∧ FailuresSettled depth (entry call.env depth c call.src).2 calls

instance decidableFailuresSettled (depth : Nat) : ∀ (c : Compiler) (calls : List Call),
    Decidable (FailuresSettled depth c calls)
  | _, [] => isTrue trivial
  | c, call :: calls =>
      have := decidableFailuresSettled depth (entry call.env depth c call.src).2 calls
      inferInstanceAs (Decidable (_ ∧ _))

/-- The calls that do not fail. -/
def compiled (depth : Nat) : Compiler → List Call → List Call
  | _, [] => []
  | c, call :: calls =>
      let (r, c) := entry call.env depth c call.src
      if r.isOk then call :: compiled depth c calls else compiled depth c calls

/-! ## The guarded run -/

section Runs

variable {α β : Type} {st : CompState}

theorem bind_of_ok {x : CompM α} {a : α} {st' : CompState} (h : x st = (.ok a, st'))
    (f : α → CompM β) : (x >>= f) st = f a st' := by
  simp only [bind, ExceptT.bind, ExceptT.mk, StateT.bind]
  rw [h]
  rfl

theorem bind_of_error {x : CompM α} {e : Option String} {st' : CompState}
    (h : x st = (.error e, st')) (f : α → CompM β) : (x >>= f) st = (.error e, st') := by
  simp only [bind, ExceptT.bind, ExceptT.mk, StateT.bind]
  rw [h]
  rfl

theorem get_apply (st : CompState) : (get : CompM CompState) st = (.ok st, st) := rfl

theorem modify_apply (f : CompState → CompState) (st : CompState) :
    (modify f : CompM PUnit) st = (.ok ⟨⟩, f st) := rfl

/-- There is a macro more, or an error has left the generator in the macro
world. -/
def Changed (st : CompState) (r : Except (Option String) α × CompState) : Prop :=
  st.macros.length < r.2.macros.length
    ∨ (∃ e, r.1 = .error e) ∧ st.inMacroWorld = false ∧ r.2.inMacroWorld = true

/-- The run `x` and the guarded run `y`, both from `st`: they are the same and
change nothing if the guarded one does not stop, and if it does, something
has changed for good. -/
structure FollowsAt (st : CompState) (x y : CompM α) : Prop where
  grows : st.macros.length ≤ (x st).2.macros.length
  stopped : (y st).1 = .error none → Changed st (x st)
  agrees : (y st).1 ≠ .error none → x st = y st ∧ (x st).2.macros = st.macros
    ∧ (x st).2.inMacroWorld = st.inMacroWorld

def Follows (x y : CompM α) : Prop := ∀ st, FollowsAt st x y

/-- A run of its own accord, guarded or not. -/
theorem follows_self {x : CompM α} (hne : ∀ st, (x st).1 ≠ .error none)
    (h : ∀ st, (x st).2.macros = st.macros ∧ (x st).2.inMacroWorld = st.inMacroWorld) :
    Follows x x := fun st =>
  ⟨by rw [(h st).1], fun hs => absurd hs (hne st), fun _ => ⟨rfl, h st⟩⟩

theorem follows_pure (a : α) : Follows (pure a) (pure a) :=
  follows_self (fun _ => nofun) fun _ => ⟨rfl, rfl⟩

theorem follows_raise (msg : String) : Follows (raiseError msg : CompM α) (raiseError msg) :=
  follows_self (fun _ => nofun) fun _ => ⟨rfl, rfl⟩

/-- What has changed stays changed. -/
theorem Changed.bind {x : CompM α} {f : α → CompM β}
    (hf : ∀ a st', st'.macros.length ≤ (f a st').2.macros.length) (h : Changed st (x st)) :
    Changed st ((x >>= f) st) := by
  rcases hx : x st with ⟨e | a, st1⟩
  · rw [bind_of_error hx]
    rw [hx] at h
    exact h.imp id fun hworld => ⟨⟨e, rfl⟩, hworld.2⟩
  · rw [bind_of_ok hx]
    rw [hx] at h
    rcases h with hlt | ⟨⟨e, he⟩, -⟩
    · exact Or.inl (Nat.lt_of_lt_of_le hlt (hf a st1))
    · cases he

theorem FollowsAt.bind {x y : CompM α} {f g : α → CompM β} (h : FollowsAt st x y)
    (hf : ∀ a, Follows (f a) (g a)) : FollowsAt st (x >>= f) (y >>= g) := by
  obtain ⟨hgrows, hstopped, hagrees⟩ := h
  have hgrows' : st.macros.length ≤ ((x >>= f) st).2.macros.length := by
    rcases hx : x st with ⟨e | a, st1⟩
    · rw [bind_of_error hx]
      rwa [hx] at hgrows
    · rw [hx] at hgrows
      rw [bind_of_ok hx]
      exact Nat.le_trans hgrows (hf a st1).grows
  rcases hy : y st with ⟨e | a, st1⟩
  · rw [hy] at hstopped hagrees
    refine ⟨hgrows', fun hs => ?_, fun hs => ?_⟩
    · rw [bind_of_error hy] at hs
      obtain rfl : e = none := Except.error.inj hs
      exact (hstopped rfl).bind fun a st' => (hf a st').grows
    · rw [bind_of_error hy] at hs ⊢
      obtain ⟨heq, hsame⟩ := hagrees fun he => hs (congrArg _ (Except.error.inj he))
      rw [heq] at hsame
      rw [bind_of_error heq]
      exact ⟨rfl, hsame⟩
  · rw [hy] at hagrees
    obtain ⟨heq, hmacros, hworld⟩ := hagrees nofun
    rw [heq] at hmacros hworld
    have h1 := hf a st1
    refine ⟨hgrows', fun hs => ?_, fun hs => ?_⟩
    · rw [bind_of_ok hy] at hs
      rw [bind_of_ok heq]
      have := h1.stopped hs
      rwa [Changed, hmacros, hworld] at this
    · rw [bind_of_ok hy] at hs ⊢
      rw [bind_of_ok heq]
      obtain ⟨h2, h3, h4⟩ := h1.agrees hs
      exact ⟨h2, h3.trans hmacros, h4.trans hworld⟩

theorem follows_ofOutcome (x : Outcome α) : Follows (ofOutcome x) (ofOutcome x) := by
  cases x with
  | ok a => exact follows_pure a
  | raise msg => exact follows_raise msg
  | fault => exact follows_raise _

theorem follows_ofExcept (x : Except String α) : Follows (ofExcept x) (ofExcept x) := by
  cases x with
  | ok a => exact follows_pure a
  | error msg => exact follows_raise msg

/-- What a leaf does. -/
theorem leafM_apply (c : GenM α) (st : CompState) : leafM c st = match c st.toGenState with
    | .ok (a, gen) => (.ok a, { st with toGenState := gen })
    | .error msg => (.error (some msg), st) := by
  rw [leafM, bind_of_ok (get_apply st)]
  cases c st.toGenState <;> rfl

theorem follows_leaf {c : GenM α} (hc : Quiet c) : Follows (leafM c) (leafM c) := by
  refine follows_self (fun st => ?_) fun st => ?_
  · rw [leafM_apply]
    split <;> nofun
  · rw [leafM_apply]
    split
    · rename_i a gen h
      exact ⟨hc _ _ _ h, rfl⟩
    · exact ⟨rfl, rfl⟩

theorem CompEnv.length_turn (env : CompEnv) (macros : List (Atom × Sexp)) :
    (env.turn macros).length = macros.length := by
  have := congrArg List.length (env.turn_names macros)
  rwa [List.length_map, List.length_map] at this

/-- A piece of the generator that adds a macro. -/
def AddsMacro (c : GenM Unit) : Prop :=
  ∀ st u st', c st = .ok (u, st') → ∃ p, st'.macros = st.macros ++ [p]

theorem addsMacro_genMacro (data : List Sexp) (line : Nat) : AddsMacro (genMacro data line) := by
  intro st u st' h
  obtain ⟨p, rfl⟩ := genMacro_ok h
  exact ⟨p, rfl⟩

theorem follows_define (env : CompEnv) (data : List Sexp) (line : Nat) :
    Follows (defineMacro env false data line) (defineMacro env true data line) := by
  intro st
  have hrun : ∀ guarded, defineMacro env guarded data line st =
      match genMacro data line st.toGenState with
      | .ok (_, gen) => (if guarded then .error none else .ok (), { st with
          toGenState := { gen with
            macros := env.turn st.macros ++ gen.macros.drop st.macros.length } })
      | .error msg => (.error (some msg), st) := by
    intro guarded
    rw [defineMacro, bind_of_ok (get_apply st)]
    have hleaf := leafM_apply (genMacro data line) st
    cases hm : genMacro data line st.toGenState with
    | error msg =>
        rw [hm] at hleaf
        rw [bind_of_error hleaf]
    | ok p =>
        rw [hm] at hleaf
        rw [bind_of_ok hleaf, bind_of_ok (modify_apply _ _)]
        cases guarded <;> rfl
  cases hm : genMacro data line st.toGenState with
  | error msg =>
      rw [hm] at hrun
      refine ⟨?_, fun hs => ?_, fun _ => ?_⟩
      · rw [hrun]
      · rw [hrun] at hs
        cases hs
      · rw [hrun, hrun]
        exact ⟨rfl, rfl, rfl⟩
  | ok p =>
      rw [hm] at hrun
      obtain ⟨p', hmacros⟩ := addsMacro_genMacro data line _ _ _ hm
      have hlen : st.macros.length < (defineMacro env false data line st).2.macros.length := by
        rw [hrun]
        dsimp only
        rw [hmacros, List.drop_left, List.length_append, env.length_turn]
        exact Nat.lt_succ_self _
      exact ⟨Nat.le_of_lt hlen, fun _ => Or.inl hlen, fun hs => absurd (by rw [hrun]; rfl) hs⟩

theorem relatedLeaves_follows : RelatedLeaves Follows leaves leaves where
  env := rfl
  pure := follows_pure
  bind := fun h hf st => (h st).bind hf
  leaf := follows_leaf

/-- Back from the macro world, with what the macro VM has made of the code. -/
theorem runExpansion_back (env : CompEnv) (func : FuncTable) (name : Atom) (line : Nat)
    (bytes : List Byte) (st : CompState) :
    (runExpansion env func name line bytes st).1 ≠ .error none
      ∧ (runExpansion env func name line bytes st).2.macros = st.macros
      ∧ (runExpansion env func name line bytes st).2.inMacroWorld = false := by
  rw [runExpansion, bind_of_ok (modify_apply _ _), bind_of_ok (get_apply _),
    bind_of_ok (modify_apply _ _)]
  cases env.loadCall st.loads bytes with
  | error msg => exact ⟨nofun, rfl, rfl⟩
  | ok sexp =>
      rw [ofExcept, pure_bind]
      cases macroResult name line sexp with
      | ok e => exact ⟨nofun, rfl, rfl⟩
      | error msg => exact ⟨nofun, rfl, rfl⟩

theorem isMacro_world {env : GenEnv} {macros : List (Atom × Sexp)} {data : List Sexp} {name : Atom}
    (h : isMacro env macros data = some name) : env.inMacroWorld = false := by
  unfold isMacro at h
  split at h
  · split at h
    · rename_i hc
      simp only [Bool.and_eq_true, Bool.not_eq_true'] at hc
      exact hc.1
    · cases h
  · cases h

theorem stopping_error {y : CompM α} {e : Option String} {st' : CompState}
    (h : y st = (.error e, st')) : stopping true y st = (.error none, st') := by
  simp only [stopping, if_true, tryCatch, tryCatchThe, MonadExceptOf.tryCatch, ExceptT.tryCatch,
    ExceptT.mk, bind, StateT.bind, h]
  rfl

theorem stopping_ok {y : CompM α} {a : α} {st' : CompState} (h : y st = (.ok a, st')) :
    stopping true y st = (.ok a, st') := by
  simp only [stopping, if_true, tryCatch, tryCatchThe, MonadExceptOf.tryCatch, ExceptT.tryCatch,
    ExceptT.mk, bind, StateT.bind, h]
  rfl

theorem FollowsAt.congr {x x' y y' : CompM α} (hx : x st = x' st) (hy : y st = y' st)
    (h : FollowsAt st x' y') : FollowsAt st x y :=
  ⟨by rw [hx]; exact h.grows, by rw [hx, hy]; exact h.stopped, by rw [hx, hy]; exact h.agrees⟩

/-- The code of an expansion, with the macro world already entered. -/
theorem compileExpansion_follows {g g' : GenIn CompM}
    (hg : ∀ ctx e tail quoted, Follows (g ctx e tail quoted) (g' ctx e tail quoted))
    (name : Atom) (code : Sexp) :
    FollowsAt { st with inMacroWorld := true }
      (fun _ => compileExpansion g name code st) (fun _ => compileExpansion g' name code st) :=
  FollowsAt.congr (bind_of_ok (modify_apply _ st) _) (bind_of_ok (modify_apply _ st) _)
    ((relatedLeaves_follows.genSexp hg code _).bind fun _ => follows_ofOutcome _)

/-- The macro world is left only where the code of an expansion compiles: what
comes after an error is not reached, and the two runs come to the rest `k`
together. -/
theorem follows_stopping {k : List Byte → CompM α}
    (hk : ∀ bytes st', (k bytes st').1 ≠ .error none ∧ (k bytes st').2.macros = st'.macros
      ∧ (k bytes st').2.inMacroWorld = false) {x y : CompM (List Byte)}
    (hworld : st.inMacroWorld = false)
    (hfollows : FollowsAt { st with inMacroWorld := true } (fun _ => x st) (fun _ => y st)) :
    FollowsAt st (stopping false x >>= k) (stopping true y >>= k) := by
  obtain ⟨hgrows, hstopped, hagrees⟩ := hfollows
  dsimp only at hgrows hstopped hagrees
  change FollowsAt st (x >>= k) _
  rcases hy : y st with ⟨e | bytes, st2⟩
  · rw [hy] at hstopped hagrees
    have hstop : (stopping true y >>= k) st = (.error none, st2) :=
      bind_of_error (stopping_error hy) k
    rcases hx : x st with ⟨e' | bytes, st3⟩
    · have hrun : (x >>= k) st = (.error e', st3) := bind_of_error hx k
      rw [hx] at hgrows hstopped hagrees
      refine ⟨by rwa [hrun], fun _ => ?_, fun hs => absurd (by rw [hstop]) hs⟩
      rw [hrun]
      cases e with
      | none => exact (hstopped rfl).imp id fun h => nomatch h.2.1
      | some msg => exact Or.inr ⟨⟨e', rfl⟩, hworld, (hagrees nofun).2.2⟩
    · have hrun : (x >>= k) st = k bytes st3 := bind_of_ok hx k
      rw [hx] at hgrows hstopped hagrees
      have hlt : st.macros.length < ((x >>= k) st).2.macros.length := by
        rw [hrun, (hk bytes st3).2.1]
        cases e with
        | some msg => cases (hagrees nofun).1
        | none =>
            rcases hstopped rfl with hlt | ⟨⟨_, he⟩, -⟩
            · exact hlt
            · cases he
      exact ⟨Nat.le_of_lt hlt, fun _ => Or.inl hlt, fun hs => absurd (by rw [hstop]) hs⟩
  · rw [hy] at hagrees
    obtain ⟨hx, hmacros, -⟩ := hagrees nofun
    rw [hx] at hmacros
    have hrun : (x >>= k) st = k bytes st2 := bind_of_ok hx k
    have hrun' : (stopping true y >>= k) st = k bytes st2 := bind_of_ok (stopping_ok hy) k
    obtain ⟨hne, hsame, hback⟩ := hk bytes st2
    refine ⟨?_, fun hs => ?_, fun _ => ?_⟩
    · rw [hrun, hsame, hmacros]
    · rw [hrun'] at hs
      exact absurd hs hne
    · rw [hrun, hrun', hsame, hmacros, hback, hworld]
      exact ⟨rfl, rfl, rfl⟩

theorem map_apply (f : α → β) (x : CompM α) (st : CompState) :
    (f <$> x) st = ((x st).1.map f, (x st).2) := by
  rw [map_eq_pure_bind]
  rcases h : x st with ⟨e | a, st'⟩
  · rw [bind_of_error h]
    rfl
  · rw [bind_of_ok h]
    rfl

/-- In an expansion the two runs go on together if the code compiles, and if
it does not, the error leaves the macro world on. -/
theorem follows_expand (env : CompEnv) {g g' : GenIn CompM}
    (hg : ∀ ctx e tail quoted, Follows (g ctx e tail quoted) (g' ctx e tail quoted))
    (data : List Sexp) (line : Nat) :
    Follows (expandMacro env false g data line) (expandMacro env true g' data line) := by
  intro st
  refine FollowsAt.congr (bind_of_ok (get_apply st) _) (bind_of_ok (get_apply st) _) ?_
  cases hm : isMacro (sourceEnv true st.inMacroWorld noMacros) st.macros data with
  | none => exact follows_pure none st
  | some name =>
      dsimp only
      cases st.macros.lookup name with
      | none => exact follows_pure none st
      | some macroForm =>
          refine follows_stopping (fun bytes st' => ?_) (isMacro_world hm)
            (compileExpansion_follows hg name _)
          rw [map_apply]
          obtain ⟨hne, hsame⟩ := runExpansion_back env st.func name line bytes st'
          refine ⟨fun he => hne ?_, hsame⟩
          cases hr : (runExpansion env st.func name line bytes st').1 with
          | error e =>
              rw [hr] at he
              exact congrArg _ (Except.error.inj he)
          | ok sexp =>
              rw [hr] at he
              cases he

theorem related_follows (env : CompEnv) :
    Related Follows (compOps env false) (compOps env true) where
  toRelatedLeaves := relatedLeaves_follows
  define := follows_define env
  expand := follows_expand env

theorem follows_start (env : CompEnv) (depth : Nat) (src : Source) :
    Follows (start env false depth src) (start env true depth src) := by
  intro st
  unfold start
  cases src.text with
  | none => exact follows_raise _ st
  | some text =>
      refine FollowsAt.bind (follows_ofExcept _ st) fun ast => ?_
      cases ast with
      | none => exact follows_raise _
      | some ast =>
          refine fun st => FollowsAt.bind
            (relatedLeaves_follows.genSexp ((related_follows env).gen depth) ast st) fun tree st =>
            FollowsAt.bind (follows_ofOutcome _ st) fun bytes => ?_
          split
          · exact follows_raise _
          · exact follows_pure _

end Runs

/-! ## Calls that fail -/

section Failures

variable {depth : Nat} {c : Compiler}

/-- A call that is settled leaves the compiler as it was, whether it fails or
not. -/
theorem entry_settled {env : CompEnv} {src : Source} (h : Settled env depth c src) :
    (entry env depth c src).2 = c := by
  obtain ⟨-, hmacros, hworld⟩ := (follows_start env depth src c.opened).agrees h
  exact congr (congrArg Compiler.mk hmacros) hworld

/-- A call that fails and is not settled does not. -/
theorem entry_unsettled {env : CompEnv} {src : Source} (h : ¬ Settled env depth c src) :
    (entry env depth c src).2 ≠ c := by
  intro hc
  rcases (follows_start env depth src c.opened).stopped (not_not.mp h) with hlt | ⟨-, hin, hout⟩
  · exact absurd (congrArg (fun c : Compiler => c.macros.length) hc) (Nat.ne_of_gt hlt)
  · exact absurd ((congrArg Compiler.inMacroWorld hc).symm.trans hout) (by
      rw [show c.inMacroWorld = false from hin]
      decide)

/-- Without the calls that fail, the others come to the same. -/
theorem session_compiled :
    ∀ {calls : List Call} {c : Compiler}, FailuresSettled depth c calls →
      session depth c (compiled depth c calls)
        = ((session depth c calls).1.filter Except.isOk, (session depth c calls).2)
  | [], _, _ => rfl
  | call :: calls, c, h => by
      have ih := session_compiled h.2
      rw [compiled, session]
      dsimp only
      cases hok : (entry call.env depth c call.src).1.isOk with
      | true =>
          rw [if_pos rfl, session]
          dsimp only
          rw [ih, List.filter_cons_of_pos hok]
      | false =>
          rw [entry_settled (h.1 hok)] at ih
          rw [if_neg Bool.false_ne_true, entry_settled (h.1 hok), ih,
            List.filter_cons_of_neg (by rw [hok]; exact Bool.false_ne_true)]

end Failures

/-- **Calls of `entry` that fail.** One leaves the compiler as it was exactly
if it is settled. Where all that fail are, the others compile to what they
would without them. -/
theorem failed_entry_iff (depth : Nat) :
    (∀ env c src, (entry env depth c src).1.isOk = false →
      ((entry env depth c src).2 = c ↔ Settled env depth c src))
    ∧ ∀ c calls, FailuresSettled depth c calls → session depth c (compiled depth c calls)
        = ((session depth c calls).1.filter Except.isOk, (session depth c calls).2) :=
  ⟨fun _ _ _ _ => ⟨fun hc => not_not.mp fun h => entry_unsettled h hc, entry_settled⟩,
    fun _ _ => session_compiled⟩

/-- The compiler as it is loaded. -/
def Compiler.fresh : Compiler := ⟨[], false⟩

/-- A source in memory, without a number in it, and a macro VM that runs no
code. -/
def Call.ofText (text : List Byte) : Call :=
  ⟨⟨noNumber, fun _ _ => .error "Not callable!", id, fun _ => rfl⟩, ⟨some text, none, true⟩⟩

/-- `(macro m () x)` -/
def macroText : List Byte :=
  atom ['(', 'm', 'a', 'c', 'r', 'o', ' ', 'm', ' ', '(', ')', ' ', 'x', ')']

/-- `(if)`, which does not compile. -/
def ifText : List Byte := atom ['(', 'i', 'f', ')']

/-- A call that fails before another one. -/
theorem failed_entry_if :
    (entry (Call.ofText ifText).env 12 .fresh (Call.ofText ifText).src).2 = .fresh
      ∧ session 12 .fresh (compiled 12 .fresh [.ofText ifText, .ofText macroText])
        = ((session 12 .fresh [.ofText ifText, .ofText macroText]).1.filter Except.isOk,
          (session 12 .fresh [.ofText ifText, .ofText macroText]).2) :=
  ⟨((failed_entry_iff 12).1 _ .fresh (Call.ofText ifText).src (by decide +kernel)).mpr
      (by decide +kernel),
    (failed_entry_iff 12).2 .fresh [.ofText ifText, .ofText macroText] (by decide +kernel)⟩

/-- A macro whose expansion does not compile: `(macro m () (if)) (m)` -/
def badExpansionText : List Byte :=
  atom ['(', 'm', 'a', 'c', 'r', 'o', ' ', 'm', ' ', '(', ')', ' ', '(', 'i', 'f', ')', ')', ' ',
    '(', 'm', ')']

/-- A macro is still there after `(macro m () x) (if)`, so that a definition
of the same name fails that would not have failed before. After an error in an
expansion there are no macro calls any more. -/
theorem failed_entry_leaves_macro :
    (session 12 .fresh [.ofText (macroText ++ ifText), .ofText macroText]).1.map Except.isOk
        = [false, false]
      ∧ (session 12 .fresh [.ofText macroText]).1.map Except.isOk = [true]
      ∧ (entry (Call.ofText (macroText ++ ifText)).env 12 .fresh
          (Call.ofText (macroText ++ ifText)).src).2.macros.length ≠ Compiler.fresh.macros.length
      ∧ (session 12 .fresh [.ofText badExpansionText]).1.map Except.isOk = [false]
      ∧ (session 12 .fresh [.ofText badExpansionText]).2.inMacroWorld
        ≠ Compiler.fresh.inMacroWorld := by
  decide +kernel

end Saurus
