import Saurus.Macro.RoundTrip
import Saurus.Macro.Unquote

/-!
# Quotes in a scope

A quote without expressions in it builds its datum, whatever is on the stack
and so in the variables, if and only if no list in it is empty or too long for
its `CALL` and, where the datum is a list, no variable in scope is called
`list`: an empty list is not accepted, a list that is too long comes to a call
of one of its elements, and a variable `list` can hold nil. A quote with
expressions in it has their values in their places (`quote_any_scope_iff`).
-/

namespace Saurus

open Basis Basis.Codec

/-! ## Calls that fail -/

/-- Nothing that a call can be made of. -/
def ValType.Uncallable (t : ValType) : Prop :=
  t ≠ .function ∧ t ≠ .nativefunc ∧ t ≠ .vector ∧ t ≠ .map

theorem Datum.Shows.uncallable {w : World} {d : Datum} {v : Value} (h : d.Shows w v) :
    v.type.Uncallable := by
  cases d with
  | number n =>
      rw [ValType.Uncallable, show v.type = .number from h.1]
      decide
  | symbol a =>
      unfold Shows symbolLiteral at h
      split at h
      · rw [ValType.Uncallable, show v.type = .nil from h]
        decide
      · rw [ValType.Uncallable, show v.type = .string from h.1]
        decide
  | list ds =>
      cases ds with
      | nil => exact absurd rfl h.1
      | cons d ds =>
          rw [ValType.Uncallable, show v.type = .cellSeq from h.2.1]
          decide

namespace Vm

variable {h : Host} {s s' : Vm}

theorem call_uncallable {a ret : Nat}
    (hf : (s.stack (s.stackTop - (a + 1))).type.Uncallable) : call h s a ret ≠ .ok s' := by
  intro hok
  obtain ⟨_, -, hok⟩ := Outcome.bind_eq_ok.mp hok
  dsimp only at hok
  split at hok
  case h_1 htype => exact hf.1 htype
  case h_2 htype => exact hf.2.1 htype
  case h_3 htype => exact hf.2.2.1 htype
  case h_4 htype => exact hf.2.2.2 htype
  case h_5 =>
    obtain ⟨name, -, hok⟩ := Outcome.bind_eq_ok.mp hok
    cases hok

/-- Neither call can be made of a value that is not called. -/
theorem step_uncallable {op : Op} (hop : op = .call ∨ op = .tcall) {n : Nat}
    (hat : s.func.prot.inst[s.pc]? = some (asInst { op := op, a := n }))
    (hf : (s.stack (s.stackTop - (n % 256 + 1))).type.Uncallable) : s.step h ≠ .ok s' := by
  intro hok
  rw [step, fetch_asInst hat, Outcome.ok_bind] at hok
  rcases hop with rfl | rfl
  · exact call_uncallable hf hok
  · obtain ⟨frame, -, hok⟩ := Outcome.bind_eq_ok.mp hok
    obtain ⟨_, -, hok⟩ := Outcome.bind_eq_ok.mp hok
    refine call_uncallable ?_ hok
    have hmoved : (s.dropFrame frame (n % 256)).stack frame.stackTop
        = s.stack (s.stackTop - (n % 256 + 1)) := by
      have hwindow := s.window_dropFrame frame (n % 256)
      rw [window, window, slice_succ, slice_succ] at hwindow
      exact (List.cons.inj hwindow).1
    have htop : (s.dropFrame frame (n % 256)).stackTop - (n % 256 + 1) = frame.stackTop :=
      Nat.add_sub_cancel ..
    rw [htop, hmoved]
    exact hf

/-- What a call takes for its function: the one that was pushed, or one of the
arguments if the operand is cut. -/
theorem callee_uncallable {base n : Nat} (htop : s.stackTop = base + 1 + n)
    (hfirst : (s.stack base).type.Uncallable ∨ 255 < n)
    (hargs : ∀ i < n, (s.stack (base + 1 + i)).type.Uncallable) :
    (s.stack (s.stackTop - (n % 256 + 1))).type.Uncallable := by
  rcases Nat.eq_or_lt_of_le (Nat.mod_le n 256) with heq | hlt
  · rw [heq, htop, show base + 1 + n - (n + 1) = base by omega]
    exact hfirst.resolve_right (by omega)
  · have harg := hargs (n - (n % 256 + 1)) (by omega)
    rwa [show base + 1 + (n - (n % 256 + 1)) = s.stackTop - (n % 256 + 1) by omega] at harg

/-- A turn that cannot be made, behind some that can. -/
theorem turns_stop {s1 : Vm} {m : Nat} (n : Nat) (hm : turns h m s = .ok s1)
    (hstep : ∀ s', s1.step h ≠ .ok s') : turns h (m + (n + 1)) s ≠ .ok s' := by
  rw [turns_add _ hm, turns]
  intro hok
  obtain ⟨s2, hs2, -⟩ := Outcome.bind_eq_ok.mp hok
  exact hstep s2 hs2

theorem turns_stopped {m : Nat} (n : Nat) (hm : ∀ s', turns h m s ≠ .ok s') :
    turns h (m + n) s ≠ .ok s' := by
  rw [turns_bind]
  intro hok
  obtain ⟨s1, hs1, -⟩ := Outcome.bind_eq_ok.mp hok
  exact hm s1 hs1

end Vm

/-! ### A variable called `list` -/

namespace Vm

/-- Nothing on the stack, nor above it, can be called. -/
def Inert (s : Vm) : Prop := ∀ i, (s.stack i).type.Uncallable

theorem Inert.update {s s' : Vm} {v : Value} (hs : s.Inert) (hv : v.type.Uncallable)
    (hstack : s'.stack = Function.update s.stack s.stackTop v) : s'.Inert := by
  intro i
  rw [hstack]
  by_cases hi : i = s.stackTop
  · rw [hi, Function.update_self]
    exact hv
  · rw [Function.update_of_ne hi]
    exact hs i

/-- A variable is pushed, wherever it is. -/
theorem step_load {h : Host} {s s' : Vm} {a : Nat}
    (hat : s.func.prot.inst[s.pc]? = some (asInst { op := .load, a := a }))
    (hstep : s.step h = .ok s') :
    s.Pushed s' 1 0 (s.pc + 1)
      ∧ ∃ i, s'.stack = Function.update s.stack s.stackTop (s.stack i) := by
  rw [step, fetch_asInst hat, Outcome.ok_bind] at hstep
  obtain ⟨s1, hload, rfl⟩ := Outcome.map_eq_ok.mp hstep
  obtain ⟨frame, -, hpush⟩ := Outcome.bind_eq_ok.mp hload
  obtain ⟨_, -, hpush⟩ := Outcome.bind_eq_ok.mp hpush
  obtain ⟨v, hslot, hpush⟩ := Outcome.bind_eq_ok.mp hpush
  obtain ⟨_, -, hv⟩ := Outcome.bind_eq_ok.mp hslot
  cases hv
  cases hpush
  exact ⟨pushed_update, _, rfl⟩

end Vm

section Stops

variable {h : Host} {code : List Instr} {K : List Const} {hole : Sexp → Nat → Nat → Prop}

mutual

/-- Where `list` is a variable and nothing can be called, the code of a list
stops, at its `CALL` if not before. -/
theorem TemplateAt.stops : ∀ {d : Datum} {lo hi : Nat} {s : Vm} {op : Op}, d.IsList →
    (op = .call ∨ op = .tcall) →
    TemplateAt code K (LoadsList code) hole op d.template lo hi →
    Ready h K code s d.literals d.height d.cells → s.Inert → s.pc = lo →
    ∀ s', Vm.turns h d.codeLength s ≠ .ok s'
  | .list ds, lo, hi, s, op, _, hop, ⟨_, mid, _, ⟨a, hat⟩, hall, hcall⟩, hr, hs, hpc, s' => by
      subst hpc
      have hlength : Datum.codeLength (.list ds) = 1 + (Datum.codeLengthAll ds + 1) := by
        rw [Datum.codeLength]
        omega
      rw [hlength]
      by_cases hload : ∃ s1, s.step h = .ok s1
      · obtain ⟨s1, hstep⟩ := hload
        obtain ⟨hp1, i, hstack⟩ := Vm.step_load (hr.code _ _ hat) hstep
        have hone : Vm.turns h 1 s = .ok s1 := by rw [Vm.turns, hstep]; rfl
        rw [Vm.turns_add _ hone]
        rcases templatesAt_stops hall (hr.elements hp1) (hs.update (hs i) hstack) hp1.pc with
          ⟨s2, hrun, hp2, hs2⟩ | hstop
        · have hat2 : s2.func.prot.inst[s2.pc]? = some (asInst { op := op, a := ds.length }) := by
            rw [hp2.func, hp1.func, hp2.pc, ← Datum.length_templates]
            exact hr.code _ _ hcall
          exact Vm.turns_stop 0 hrun fun s' => Vm.step_uncallable hop hat2 (hs2 _)
        · exact Vm.turns_stopped 1 hstop
      · refine Vm.turns_stopped _ fun s1 hone => hload ⟨s1, ?_⟩
        rw [Vm.turns] at hone
        obtain ⟨s2, hstep, hsame⟩ := Outcome.bind_eq_ok.mp hone
        cases hsame
        exact hstep

theorem templatesAt_stops : ∀ {ds : List Datum} {lo hi : Nat} {s : Vm},
    TemplatesAt code K (LoadsList code) hole (Datum.templates ds) lo hi →
    Ready h K code s (Datum.literalsAll ds) (Datum.heightAll ds) (Datum.cellsAll ds) →
    s.Inert → s.pc = lo →
    (∃ s', Vm.turns h (Datum.codeLengthAll ds) s = .ok s' ∧ s.Pushed s' ds.length 0 hi ∧ s'.Inert)
    ∨ ∀ s', Vm.turns h (Datum.codeLengthAll ds) s ≠ .ok s'
  | [], lo, hi, s, hhi, _, hs, hpc => by
      obtain rfl : hi = lo := hhi
      exact Or.inl ⟨s, rfl, ⟨.rfl, rfl, rfl, rfl, hpc, rfl, fun _ _ => rfl⟩, hs⟩
  | d :: ds, lo, hi, s, ⟨mid, hd, hds⟩, hr, hs, hpc => by
      by_cases hlist : d.IsList
      · exact Or.inr fun s' =>
          Vm.turns_stopped _ (TemplateAt.stops hlist (Or.inl rfl) hd hr.first hs hpc)
      · obtain ⟨s1, v, hrun1, hp1, hstack, hshows⟩ :=
          (hd.quoteAt_atom hlist).push hlist hr.first hpc
        have hr2 : Ready h K code s1 (Datum.literalsAll ds) (Datum.heightAll ds)
            (Datum.cellsAll ds) :=
          hr.pushed hp1 (fun _ hlit => List.mem_append_right _ hlit)
            (Nat.add_comm .. ▸ Nat.le_max_right ..) (Nat.zero_add _ ▸ Nat.le_add_left ..)
        rcases templatesAt_stops hds hr2 (hs.update hshows.uncallable hstack) hp1.pc with
          ⟨s2, hrun2, hp2, hs2⟩ | hstop
        · refine Or.inl ⟨s2, ?_, ?_, hs2⟩
          · rw [Datum.codeLengthAll, Vm.turns_add _ hrun1, hrun2]
          · have hp := hp1.trans hp2
            rwa [Nat.add_comm 1] at hp
        · refine Or.inr fun s' => ?_
          rw [Datum.codeLengthAll, Vm.turns_add _ hrun1]
          exact hstop s'

end

/-! ### A list that is too long -/

theorem uncallable_of_shows {w : World} {s : Vm} {ds : List Datum} {i : Nat} (hi : i < ds.length)
    {base : Nat} (hshows : List.Forall₂ (fun d v => d.Shows w v) ds (s.window base ds.length)) :
    (s.stack (base + i)).type.Uncallable := by
  have hi' : i < (s.window base ds.length).length := by rwa [Vm.window, length_slice]
  have hshow := hshows.get hi hi'
  rw [List.get_eq_getElem, List.get_eq_getElem] at hshow
  have hval : (s.window base ds.length)[i] = s.stack (base + i) :=
    Option.some.inj ((List.getElem?_eq_getElem hi').symm.trans (getElem?_slice hi))
  rw [hval] at hshow
  exact hshow.uncallable

mutual

/-- A list that is too long for its `CALL` comes to a call of an element. -/
theorem QuoteAt.stops : ∀ {d : Datum} {lo hi : Nat} {s : Vm} {op : Op}, ¬ d.Narrow →
    (op = .call ∨ op = .tcall) → QuoteAt code K op d lo hi → d.Quotable →
    Ready h K code s d.literals d.height d.cells → s.pc = lo →
    ∀ s', Vm.turns h d.codeLength s ≠ .ok s'
  | .number _, _, _, _, _, hn, _, _, _, _, _, _ => absurd trivial hn
  | .symbol _, _, _, _, _, hn, _, _, _, _, _, _ => absurd trivial hn
  | .list ds, lo, hi, s, op, hn, hop, ⟨a, mid, _, hpicks, hat, hall, hcall⟩, hq, hr, hpc, s' => by
      subst hpc
      by_cases hall' : Datum.NarrowAll ds
      · obtain ⟨s2, hrun, hp, htype, hlist, hshows⟩ := elements_run hat hpicks hr
          fun s1 hpc1 hr1 => quoteAllAt_run hall hq.2.2 hall' hr1 hpc1
        have hat2 : s2.func.prot.inst[s2.pc]? = some (asInst { op := op, a := ds.length }) := by
          rw [hp.func, hp.pc]
          exact hr.code _ _ hcall
        have htop : s2.stackTop = s.stackTop + 1 + ds.length := by
          rw [hp.stackTop]
          omega
        have hlong : 255 < ds.length := Nat.lt_of_not_le fun hle => hn ⟨hle, hall'⟩
        exact Vm.turns_stop 0 hrun fun s' => Vm.step_uncallable hop hat2
          (Vm.callee_uncallable htop (Or.inr hlong) fun i hi => uncallable_of_shows hi hshows)
      · obtain ⟨f, hf, -⟩ := hr.list a hpicks
        have hroom : s.stackTop + (Datum.heightAll ds + 1) ≤ stackSize := hr.room
        obtain ⟨s1, hstep, hp1, -⟩ := Vm.step_getglobal (h := h) (hr.code _ _ hat) hf (by omega)
        have hone : Vm.turns h 1 s = .ok s1 := by rw [Vm.turns, hstep]; rfl
        have hlength : Datum.codeLength (.list ds) = 1 + (Datum.codeLengthAll ds + 1) := by
          rw [Datum.codeLength]
          omega
        rw [hlength, Vm.turns_add _ hone]
        exact Vm.turns_stopped 1 (quoteAllAt_stops hall' hall hq.2.2 (hr.elements hp1) hp1.pc)

theorem quoteAllAt_stops : ∀ {ds : List Datum} {lo hi : Nat} {s : Vm}, ¬ Datum.NarrowAll ds →
    QuoteAllAt code K ds lo hi → Datum.QuotableAll ds →
    Ready h K code s (Datum.literalsAll ds) (Datum.heightAll ds) (Datum.cellsAll ds) → s.pc = lo →
    ∀ s', Vm.turns h (Datum.codeLengthAll ds) s ≠ .ok s'
  | [], _, _, _, hn, _, _, _, _, _ => absurd trivial hn
  | d :: ds, lo, hi, s, hn, ⟨mid, hd, hds⟩, hq, hr, hpc, s' => by
      by_cases hnd : d.Narrow
      · obtain ⟨s1, hrun1, hp1, -⟩ := hd.run hq.1 hnd hr.first hpc
        rw [Datum.codeLengthAll, Vm.turns_add _ hrun1]
        exact quoteAllAt_stops (fun hall => hn ⟨hnd, hall⟩) hds hq.2 (hr.rest hp1) hp1.pc s'
      · exact Vm.turns_stopped _ (hd.stops hnd (Or.inl rfl) hq.1 hr.first hpc)

end

end Stops

/-! ## What is built -/

/-- What is made of the call, if it is accepted, is in the function. -/
def GenCall.LandsIn (env : GenEnv) (depth : Nat) (c : GenCall) (F : Func) : Prop :=
  ∀ st', c.run (gen env depth) = .ok ((), st') → st'.func.KeptIn F

theorem Calls.landsIn {optTail inMacroWorld : Bool}
    {expand : List MacroCall → MacroCall → Except String (Sexp × List (Atom × Sexp))}
    {depth depth' : Nat} {e : Sexp} {st st' : GenState} {func : Func} {c : GenCall}
    (hgen : genSexp (sourceEnv optTail inMacroWorld expand) depth e st = .ok (func, st'))
    (hcalls : Calls (sourceEnv optTail inMacroWorld expand) depth (rootCall e st) depth' c) :
    ∃ path F, func.at? path = some F
      ∧ c.LandsIn (sourceEnv optTail inMacroWorld expand) depth' F := by
  obtain ⟨st1, hroot, hkept⟩ := genSexp_root hgen
  obtain ⟨st2, hrun, -, hland⟩ := hcalls.landed hroot
  obtain ⟨path, F, hat, hF⟩ := hland.grows hkept
  refine ⟨path, F, hat, fun st3 hrun3 => ?_⟩
  cases hrun.symm.trans hrun3
  exact hF

/-- The quote of `x` is accepted, and whatever is on the stack, its code, run
from `s` on, leaves the datum `x`. -/
def GenCall.Builds (env : GenEnv) (depth : Nat) (c : GenCall) (x : Sexp) (h : Host) (s : Vm) :
    Prop :=
  (∃ st', c.run (gen env depth) = .ok ((), st'))
    ∧ ∀ stack, ∃ s', Vm.turns h x.datum.codeLength { s with stack := stack } = .ok s'
      ∧ 0 < s'.stackTop
      ∧ x.datum.Shows s'.world (s'.stack (s'.stackTop - 1))

section Scope

variable {optTail inMacroWorld : Bool}
  {expand : List MacroCall → MacroCall → Except String (Sexp × List (Atom × Sexp))}
  {depth : Nat} {c : GenCall} {x : Sexp} {F : Func} {h : Host} {s : Vm}

/-- The code of an accepted quote, where it has landed. -/
theorem GenCall.Quotes.templateAt (hquote : c.Quotes (sourceEnv optTail inMacroWorld expand) x)
    (hland : c.LandsIn (sourceEnv optTail inMacroWorld expand) depth F) {st' : GenState}
    (hrun : c.run (gen (sourceEnv optTail inMacroWorld expand) depth) = .ok ((), st'))
    (hhole : ∀ e, x.template ≠ .hole e) :
    ∃ op, (op = .call ∨ op = .tcall ∧ c.tail = true)
      ∧ TemplateAt F.instructions F.const (FetchesList c.ctx F.instructions F.const)
        (GeneratedAt (sourceEnv optTail inMacroWorld expand) c.ctx F.instructions F.const) op
        x.template c.st.pos st'.pos := by
  cases depth with
  | zero => cases hrun
  | succ depth =>
      obtain ⟨depth', -, hgen⟩ := hquote.run depth
      exact gen_template depth' x c.tail c.st st' (fun _ => hhole) (hgen.symm.trans hrun)
        (hland st' hrun).codeKept

theorem fetchesList_getsList {ctx : Ctx} (hctx : ctx.NoList) (code : List Instr)
    (K : List Const) : FetchesList ctx code K = GetsList code K :=
  funext fun _ => if_pos hctx

theorem fetchesList_loadsList {ctx : Ctx} (hctx : ¬ ctx.NoList) (code : List Instr)
    (K : List Const) : FetchesList ctx code K = LoadsList code :=
  funext fun _ => if_neg hctx

theorem Ready.onStack {K : List Const} {code : List Instr} {lits : List Literal}
    {height cells : Nat} (hr : Ready h K code s lits height cells) (stack : Nat → Value) :
    Ready h K code { s with stack := stack } lits height cells :=
  ⟨hr.code, hr.held, hr.list, hr.room, hr.memory⟩

/-- Without holes, a quote that is right is built. -/
theorem GenCall.Quotes.builds (hquote : c.Quotes (sourceEnv optTail inMacroWorld expand) x)
    (hland : c.LandsIn (sourceEnv optTail inMacroWorld expand) depth F) (hpc : s.pc = c.st.pos)
    (hframe : c.tail = true → ∃ frame, s.frame = .ok frame ∧ frame.stackTop ≤ s.stackTop)
    (hplain : x.datum.Plain) (hlevels : x.datum.levels < depth)
    (hr : Ready h F.const F.instructions s x.datum.literals x.datum.height x.datum.cells)
    (hfull : x.datum.Full) (hnarrow : x.datum.Narrow) (hctx : x.datum.IsList → c.ctx.NoList) :
    c.Builds (sourceEnv optTail inMacroWorld expand) depth x h s := by
  obtain ⟨st', hrun⟩ :
      ∃ st', c.run (gen (sourceEnv optTail inMacroWorld expand) depth) = .ok ((), st') := by
    obtain ⟨depth, rfl⟩ := Nat.exists_eq_add_of_le' (Nat.succ_le_of_lt (Nat.zero_lt_of_lt hlevels))
    obtain ⟨depth', hdepth, hgen⟩ := hquote.run depth
    obtain ⟨st', hrun⟩ := gen_accepts depth' x hplain hfull
      (Nat.le_trans (Nat.le_of_lt_succ hlevels) hdepth) c.tail c.st
    exact ⟨st', hgen.trans hrun⟩
  have htemplate := template_plain hplain
  obtain ⟨op, hop, hat⟩ := hquote.templateAt hland hrun (htemplate ▸ x.datum.template_ne_hole)
  rw [htemplate, ← hpc] at hat
  have hquoteAt : QuoteAt F.instructions F.const op x.datum s.pc st'.pos := by
    by_cases hlist : x.datum.IsList
    · rw [fetchesList_getsList (hctx hlist)] at hat
      exact hat.quoteAt
    · exact hat.quoteAt_atom hlist
  refine ⟨⟨st', hrun⟩, fun stack => ?_⟩
  obtain ⟨s', hturns, htop, hshows⟩ := quote_shows (s := { s with stack := stack }) hop hquoteAt
    (hplain.quotable hfull) hnarrow (hr.onStack stack) hframe
  exact ⟨s', hturns, htop, hshows⟩

/-- Without holes, a quote that is built is right. -/
theorem GenCall.Quotes.right (hquote : c.Quotes (sourceEnv optTail inMacroWorld expand) x)
    (hland : c.LandsIn (sourceEnv optTail inMacroWorld expand) depth F) (hpc : s.pc = c.st.pos)
    (hplain : x.datum.Plain)
    (hr : Ready h F.const F.instructions s x.datum.literals x.datum.height x.datum.cells)
    (hbuilds : c.Builds (sourceEnv optTail inMacroWorld expand) depth x h s) :
    x.datum.Full ∧ x.datum.Narrow ∧ (x.datum.IsList → c.ctx.NoList) := by
  obtain ⟨⟨st', hrun⟩, hleaves⟩ := hbuilds
  have htemplate := template_plain hplain
  obtain ⟨op, hop, hat⟩ := hquote.templateAt hland hrun (htemplate ▸ x.datum.template_ne_hole)
  rw [htemplate, ← hpc] at hat
  have hcall : op = .call ∨ op = .tcall := hop.imp_right And.left
  have hfull := hat.full
  have hctx : x.datum.IsList → c.ctx.NoList := by
    intro hlist
    by_contra hno
    rw [fetchesList_loadsList hno] at hat
    -- every variable holds nil
    obtain ⟨s', hturns, -⟩ := hleaves fun _ => ⟨.nil, 0#64⟩
    exact hat.stops hlist hcall (hr.onStack fun _ => ⟨.nil, 0#64⟩)
      (fun _ => show ValType.nil.Uncallable by unfold ValType.Uncallable; decide) rfl s' hturns
  refine ⟨hfull, ?_, hctx⟩
  by_cases hlist : x.datum.IsList
  · by_contra hlong
    rw [fetchesList_getsList (hctx hlist)] at hat
    obtain ⟨s', hturns, -⟩ := hleaves s.stack
    exact hat.quoteAt.stops hlong hcall (hplain.quotable hfull) hr rfl s' hturns
  · cases hx : x.datum with
    | number n => trivial
    | symbol a => trivial
    | list ds => exact absurd (hx ▸ trivial) hlist

/-- **Quotes in a scope.** In every program the code of an accepted quote is in
one of the functions. Where it is, and within the limits on the way, a quote
without expressions in it is accepted and builds its datum in every scope if
and only if no list in it is empty or too long and, if it is a list, no
variable is called `list`. In a list with expressions under `unquote` there is
in the place of each the value that its own code, generated at this place in
the scope of the quote, has left. Runs are without collections here: the list
is made of cells that one could free. -/
theorem quote_any_scope_iff (hquote : c.Quotes (sourceEnv optTail inMacroWorld expand) x) :
    (∀ {depth0 : Nat} {e : Sexp} {st st' : GenState} {func : Func},
      genSexp (sourceEnv optTail inMacroWorld expand) depth0 e st = .ok (func, st') →
      Calls (sourceEnv optTail inMacroWorld expand) depth0 (rootCall e st) depth c →
      ∃ path F, func.at? path = some F
        ∧ c.LandsIn (sourceEnv optTail inMacroWorld expand) depth F)
    ∧ ∀ {F : Func}, c.LandsIn (sourceEnv optTail inMacroWorld expand) depth F →
      ∀ {h : Host} {s : Vm}, s.pc = c.st.pos →
      (c.tail = true → ∃ frame, s.frame = .ok frame ∧ frame.stackTop ≤ s.stackTop) →
      (x.datum.Plain → x.datum.levels < depth →
        Ready h F.const F.instructions s x.datum.literals x.datum.height x.datum.cells →
        (c.Builds (sourceEnv optTail inMacroWorld expand) depth x h s
          ↔ x.datum.Full ∧ x.datum.Narrow ∧ (x.datum.IsList → c.ctx.NoList)))
      ∧ ∀ {ts : List Template} {st' : GenState}, x.template = .list ts →
        c.run (gen (sourceEnv optTail inMacroWorld expand) depth) = .ok ((), st') →
        c.ctx.NoList → x.template.Narrow → s.stackTop + x.template.height ≤ stackSize →
        Fillable h (sourceEnv optTail inMacroWorld expand) c.ctx F.const F.instructions s
          x.template.literals x.template.holes →
        Vm.NativesKeep h →
        ∃ n s', Vm.turns h n s = .ok s' ∧ 0 < s'.stackTop
          ∧ x.template.Filled s'.world
            (Evaluated h (sourceEnv optTail inMacroWorld expand) c.ctx F.const F.instructions s)
            c.st.pos st'.pos (s'.stack (s'.stackTop - 1)) := by
  refine ⟨fun hgen hcalls => hcalls.landsIn hgen, fun {F} hland {h s} hpc hframe =>
    ⟨fun hplain hlevels hr => ⟨hquote.right hland hpc hplain hr, ?_⟩, ?_⟩⟩
  · rintro ⟨hfull, hnarrow, hctx⟩
    exact hquote.builds hland hpc hframe hplain hlevels hr hfull hnarrow hctx
  · intro ts st' hts hrun hctx hnarrow hroom hfill hnative
    obtain ⟨op, hop, hat⟩ := hquote.templateAt hland hrun
      fun e he => Template.noConfusion (hts.symm.trans he)
    rw [hts] at hat hnarrow hroom hfill ⊢
    rw [fetchesList_getsList hctx, ← hpc] at hat
    rw [← hpc]
    exact hat.fills hop hnarrow hroom hframe hfill hnative

end Scope

/-! ## The same list again -/

/-- The program `(quote (n (unquote n)))`, of which the same is generated as of
`(quote (n n))`. -/
def quoteHole (n : BitVec 64) : Sexp :=
  .sexp [.symbol quoteAtom 1,
    .sexp [.number n 1, .sexp [.symbol unquoteAtom 1, .number n 1] 1] 1] 1

theorem generate_hole : generate (quoteHole 1#64) = some (quoteTwoFunc sameConst 1 1) := rfl

/-- `n` turns can be made and no more, all in states with the property. -/
def Vm.Along (h : Host) (P : Vm → Prop) : Nat → Vm → Prop
  | 0, s => P s ∧ ∃ msg, s.step h = .raise msg
  | n + 1, s => P s ∧ ∃ s', s.step h = .ok s' ∧ Along h P n s'

theorem Vm.Along.turns {h : Host} {P : Vm → Prop} : ∀ {n m : Nat} {s s' : Vm}, Along h P n s →
    turns h m s = .ok s' → P s'
  | 0, 0, _, _, hs, hrun => by
      cases hrun
      exact hs.1
  | _ + 1, 0, _, _, hs, hrun => by
      cases hrun
      exact hs.1
  | 0, _ + 1, _, _, ⟨_, msg, hstop⟩, hrun => by
      rw [Vm.turns, hstop] at hrun
      cases hrun
  | _ + 1, _ + 1, _, _, ⟨_, s1, hstep, hs1⟩, hrun => by
      rw [Vm.turns, hstep] at hrun
      exact hs1.turns hrun

/-- The loaded program, with `f` for `list` in all of its run. After the list
is built the program calls it, and stops. -/
theorem same_runs : ∃ s f, Relation.ReflTransGen (Vm.Moves listHost) listVm s
    ∧ s.func.prot = sameProto ∧ s.pc = 0 ∧ f.type = .nativefunc
    ∧ s.func.constants[1]? = some ⟨.number, 1#64⟩ ∧ s.stackTop = 1
    ∧ s.Along listHost (fun s => getGlobal s.world s.func 0 = .ok f
      ∧ s.world.objects.length ≤ 6 ∧ s.stackTop ≤ 4) 5 := by
  obtain ⟨n, s0, s, f, hload, henter, hrest⟩ : ∃ n s0 s f,
      pushLoaded listHost listVm sameProto = .ok (n, s0) ∧ s0.suEnter 0 = .ok s
        ∧ s.func.prot = sameProto ∧ s.pc = 0 ∧ f.type = .nativefunc
        ∧ s.func.constants[1]? = some ⟨.number, 1#64⟩ ∧ s.stackTop = 1
        ∧ s.Along listHost (fun s => getGlobal s.world s.func 0 = .ok f
          ∧ s.world.objects.length ≤ 6 ∧ s.stackTop ≤ 4) 5 :=
    ⟨_, _, _, ⟨.nativefunc, 1#64⟩, rfl, rfl, rfl, rfl, rfl, rfl, rfl,
      ⟨rfl, by decide, by decide⟩, _, rfl, ⟨rfl, by decide, by decide⟩, _, rfl,
      ⟨rfl, by decide, by decide⟩, _, rfl, ⟨rfl, by decide, by decide⟩, _, rfl,
      ⟨rfl, by decide, by decide⟩, _, rfl, ⟨rfl, by decide, by decide⟩, _, rfl⟩
  exact ⟨s, f, .tail (.single (.load sameProto hload)) (.enter 0 henter), hrest⟩

/-- Code that was generated for a number leaves a value. -/
theorem same_hole {s : Vm} (hcode : ∀ (pc : Nat) (i : Instr),
      (quoteTwoFunc sameConst 1 1).instructions[pc]? = some i →
      s.func.prot.inst[pc]? = some (asInst i))
    (hconst : s.func.constants[1]? = some ⟨.number, 1#64⟩) {ctx : Ctx} {lo hi line : Nat} {s1 : Vm}
    (hat : GeneratedAt (sourceEnv true false noMacros) ctx
      (quoteTwoFunc sameConst 1 1).instructions sameConst (.number 1#64 line) lo hi)
    (hs1 : s.Reaches listHost s1) (hpc : s1.pc = lo) (htop : s1.stackTop ≤ 4) :
    ∃ s2, s1.Comes listHost s2 1 hi := by
  obtain ⟨depth, st, st', hgen, rfl, rfl, hkept⟩ := hat
  cases depth with
  | zero => cases hgen
  | succ depth =>
      obtain ⟨a, st0, hpush, hst'⟩ := genConst_ok hgen
      obtain ⟨hpos, a, hpicks, hpush⟩ := hkept.emitted hpush hst' (by decide) (by decide)
      obtain rfl := picks_same_number hpicks
      rw [← hpc] at hpush
      obtain ⟨s2, hstep, hp, -⟩ := Vm.step_pushConst (h := listHost) (s := s1)
        (by rw [hs1.func]; exact hcode _ _ hpush) (by rw [hs1.func]; exact hconst)
        (Nat.lt_of_le_of_lt htop (by decide))
      exact ⟨s2, hpos ▸ hpc ▸ hp.comes hstep⟩

/-- The list `(1 1)` is built, of itself and of `(1 (unquote 1))`. -/
theorem quote_any_scope_same :
    ∃ s, Relation.ReflTransGen (Vm.Moves listHost) listVm s ∧ s.func.prot = sameProto ∧ s.pc = 0
      ∧ (rootCall (quoteTwo 1#64 1#64) genStart).Builds (sourceEnv true false noMacros) 8
        (.sexp [.number 1#64 1, .number 1#64 1] 1) listHost s
      ∧ ∃ hi n s', Vm.turns listHost n s = .ok s' ∧ 0 < s'.stackTop
        ∧ (Template.list [.number 1#64, .hole (.number 1#64 1)]).Filled s'.world
          (Evaluated listHost (sourceEnv true false noMacros)
            (rootCall (quoteHole 1#64) genStart).ctx sameConst
            (quoteTwoFunc sameConst 1 1).instructions s) 0 hi (s'.stack (s'.stackTop - 1)) := by
  obtain ⟨s, f, hrun, hprot, hpc, htype, hconst, htop, halong⟩ := same_runs
  have hcode : ∀ (pc : Nat) (i : Instr), (quoteTwoFunc sameConst 1 1).instructions[pc]? = some i →
      s.func.prot.inst[pc]? = some (asInst i) := by
    intro pc i hi
    rw [hprot, sameProto, inst_asProto, List.getElem?_map,
      show ((quoteTwoFunc sameConst 1 1).named [0x3f#8]).instructions[pc]? = some i from hi]
    rfl
  have hheld : ∀ lit ∈ [Literal.number 1#64], ∀ a, Picks sameConst lit.const a →
      ∃ v, s.func.constants[a % 256]? = some v ∧ lit.Denotes s.world v := by
    intro lit hlit a ha
    obtain rfl := List.mem_singleton.mp hlit
    rw [picks_same_number ha]
    exact ⟨_, hconst, rfl, rfl⟩
  obtain ⟨hlist0, hlen0, -⟩ := halong.turns (m := 0) rfl
  have hframe : false = true → ∃ frame, s.frame = .ok frame ∧ frame.stackTop ≤ s.stackTop :=
    fun h => Bool.noConfusion h
  refine ⟨s, hrun, hprot, hpc, ?_, ?_⟩
  · have hquote : (rootCall (quoteTwo 1#64 1#64) genStart).Quotes (sourceEnv true false noMacros)
        (.sexp [.number 1#64 1, .number 1#64 1] 1) := ⟨rfl, ⟨1, 1, [], rfl⟩, Or.inr rfl⟩
    obtain ⟨st', hgen⟩ := genSexp_of_generate generate_same
    obtain ⟨hplaced, hscope⟩ := quote_any_scope_iff hquote
    obtain ⟨path, F, hat, hland⟩ := hplaced hgen .refl
    obtain rfl := same_at? hat
    refine ((hscope hland hpc hframe).1 ?_ (by decide) ?_).mpr ?_
    · exact ⟨fun h => Datum.noConfusion (Option.some.inj h), trivial, trivial, trivial⟩
    · refine ⟨hcode, fun lit hlit => hheld lit ?_, fun a ha => ?_, ?_, ?_⟩
      · simpa [Sexp.datum, Sexp.data, Datum.literals, Datum.literalsAll] using hlit
      · rw [picks_same_list ha]
        exact ⟨f, hlist0, htype, runsList_listHost _⟩
      · rw [htop]
        decide
      · exact Nat.lt_of_le_of_lt (Nat.add_le_add_right hlen0 _) (by decide)
    · exact ⟨⟨List.cons_ne_nil _ _, trivial, trivial, trivial⟩,
        ⟨by decide, trivial, trivial, trivial⟩, fun _ => ⟨rfl, rfl⟩⟩
  · have hquote : (rootCall (quoteHole 1#64) genStart).Quotes (sourceEnv true false noMacros)
        (.sexp [.number 1#64 1, .sexp [.symbol unquoteAtom 1, .number 1#64 1] 1] 1) :=
      ⟨rfl, ⟨1, 1, [], rfl⟩, Or.inr rfl⟩
    obtain ⟨st', hgen⟩ := genSexp_of_generate generate_hole
    obtain ⟨hplaced, hscope⟩ := quote_any_scope_iff hquote
    obtain ⟨path, F, hat, hland⟩ := hplaced hgen .refl
    obtain rfl := same_at? hat
    obtain ⟨st1, hroot, -⟩ := genSexp_root hgen
    refine ⟨st1.pos, (hscope hland hpc hframe).2 rfl hroot ⟨rfl, rfl⟩ ?_ ?_ ?_ ?_⟩
    · exact ⟨by decide, trivial, trivial, trivial⟩
    · rw [htop]
      decide
    · refine ⟨hcode, hheld, fun s1 hs1 a ha => ?_, fun s1 hs1 => ?_,
        fun e he lo hi s1 hat hs1 hlo => ?_⟩
      · obtain ⟨n, hn⟩ := hs1.run
        rw [picks_same_list ha]
        exact ⟨f, (halong.turns hn).1, htype, runsList_listHost _⟩
      · obtain ⟨n, hn⟩ := hs1.run
        exact Nat.lt_of_le_of_lt (Nat.add_le_add_right (halong.turns hn).2.1 _) (by decide)
      · obtain ⟨n, hn⟩ := hs1.run
        obtain rfl := List.mem_singleton.mp he
        exact same_hole hcode hconst hat hs1 hlo (halong.turns hn).2.2
    · exact fun _ _ _ _ => additive_listHost World.KeepsData.additive

/-- The program `(quote ())`. -/
def quoteEmpty : Sexp := .sexp [.symbol quoteAtom 1, .sexp [] 1] 1

/-- The empty list is not accepted, however deep the generator may go. -/
theorem quote_empty_refused :
    ¬ ∃ depth r, genSexp (sourceEnv true false noMacros) depth quoteEmpty genStart = .ok r := by
  rintro ⟨depth, ⟨func, st'⟩, hgen⟩
  obtain ⟨st1, hrun, -⟩ := genSexp_root hgen
  have hquote : (rootCall quoteEmpty genStart).Quotes (sourceEnv true false noMacros)
      (.sexp [] 1) := ⟨rfl, ⟨1, 1, [], rfl⟩, Or.inr rfl⟩
  cases depth with
  | zero => cases hrun
  | succ depth =>
      obtain ⟨depth', -, hquoted⟩ := hquote.run depth
      rw [hquoted] at hrun
      -- `assert(len > 0)`
      cases depth' with
      | zero => cases hrun
      | succ depth' => cases hrun

end Saurus
