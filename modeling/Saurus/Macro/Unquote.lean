import Saurus.Macro.Template
import Saurus.Vm.Cells

/-!
# Expressions in a quote

An expression under `unquote` is evaluated by the code that was generated for
it in the scope of the quote, above what is on the stack by then, and the list
around it is made with the value it leaves (`TemplateAt.fills`). Whatever the
code does meanwhile, the strings and cells made before are still there after
it; that `list` is still the native then is asked for, like that there is
memory for the next list (`Fillable`).
-/

namespace Saurus

open Basis Basis.Codec

/-! ## Values -/

section Values

variable {w w' : World}

theorem Literal.Denotes.kept {lit : Literal} {v : Value} (h : lit.Denotes w v)
    (hw : w.KeepsData w') : lit.Denotes w' v := by
  cases lit with
  | string s =>
      obtain ⟨htype, hash, hobj⟩ := h
      exact ⟨htype, hash, hw.strings _ _ _ hobj⟩
  | nil => exact h
  | boolean b => exact h
  | number n => exact h

theorem Chained.kept (hw : w.KeepsData w') : ∀ {xs : List Value} {v : Value}, Chained w v xs →
    Chained w' v xs
  | [], _, h => h
  | _ :: _, _, ⟨htype, rest, hobj, hrest⟩ => ⟨htype, rest, hw.cells _ _ _ hobj, hrest.kept hw⟩

end Values

namespace Template

mutual

/-- The value is what the template makes, with its code from `lo` to `hi`: the
value of an atom, a list of cells, nil for the empty one, or what `val` has for
the hole at this place. -/
def Filled (w : World) (val : Sexp → Nat → Nat → Value → Prop) :
    Template → Nat → Nat → Value → Prop
  | .number n, lo, hi, v => hi = lo + 1 ∧ (Literal.number n).Denotes w v
  | .symbol a, lo, hi, v => hi = lo + 1 ∧ (Datum.symbolLiteral a).Denotes w v
  | .list ts, lo, hi, v => ∃ mid vs, hi = mid + 1 ∧ Chained w v vs
      ∧ FilledAll w val ts (lo + 1) mid vs
  | .hole e, lo, hi, v => val e lo hi v

def FilledAll (w : World) (val : Sexp → Nat → Nat → Value → Prop) :
    List Template → Nat → Nat → List Value → Prop
  | [], lo, hi, vs => hi = lo ∧ vs = []
  | t :: ts, lo, hi, vs => ∃ mid v rest, vs = v :: rest ∧ t.Filled w val lo mid v
      ∧ FilledAll w val ts mid hi rest

end

mutual

/-- The atoms, as literals. -/
def literals : Template → List Literal
  | .number n => [.number n]
  | .symbol a => [Datum.symbolLiteral a]
  | .list ts => literalsAll ts
  | .hole _ => []

def literalsAll : List Template → List Literal
  | [] => []
  | t :: ts => t.literals ++ literalsAll ts

end

mutual

/-- The expressions to be evaluated. -/
def holes : Template → List Sexp
  | .number _ => []
  | .symbol _ => []
  | .list ts => holesAll ts
  | .hole e => [e]

def holesAll : List Template → List Sexp
  | [] => []
  | t :: ts => t.holes ++ holesAll ts

end

mutual

/-- How many slots it takes to build the template, next to what its holes
take. -/
def height : Template → Nat
  | .number _ => 1
  | .symbol _ => 1
  | .list ts => heightAll ts + 1
  | .hole _ => 1

def heightAll : List Template → Nat
  | [] => 1
  | t :: ts => max t.height (heightAll ts + 1)

end

theorem length_lt_height : ∀ ts : List Template, ts.length < heightAll ts
  | [] => Nat.zero_lt_one
  | _ :: ts => by
      have := length_lt_height ts
      rw [List.length_cons, heightAll]
      omega

mutual

/-- No list has more elements than the operand of `CALL` can count. -/
def Narrow : Template → Prop
  | .number _ => True
  | .symbol _ => True
  | .list ts => ts.length ≤ 255 ∧ NarrowAll ts
  | .hole _ => True

def NarrowAll : List Template → Prop
  | [] => True
  | t :: ts => t.Narrow ∧ NarrowAll ts

end

section Kept

variable {w w' : World} {val : Sexp → Nat → Nat → Value → Prop}

mutual

theorem Filled.kept (hw : w.KeepsData w') : ∀ {t : Template} {lo hi : Nat} {v : Value},
    t.Filled w val lo hi v → t.Filled w' val lo hi v
  | .number _, _, _, _, ⟨hhi, h⟩ => ⟨hhi, h.kept hw⟩
  | .symbol _, _, _, _, ⟨hhi, h⟩ => ⟨hhi, h.kept hw⟩
  | .list _, _, _, _, ⟨mid, vs, hhi, hchain, hall⟩ =>
      ⟨mid, vs, hhi, hchain.kept hw, filledAll_kept hw hall⟩
  | .hole _, _, _, _, h => h

theorem filledAll_kept (hw : w.KeepsData w') : ∀ {ts : List Template} {lo hi : Nat}
    {vs : List Value}, FilledAll w val ts lo hi vs → FilledAll w' val ts lo hi vs
  | [], _, _, _, h => h
  | _ :: _, _, _, _, ⟨mid, v, rest, hvs, hv, hrest⟩ =>
      ⟨mid, v, rest, hvs, hv.kept hw, filledAll_kept hw hrest⟩

end

end Kept

end Template

/-! ## Runs above a stack -/

namespace Vm

/-- Turns of the loop lead from `s` to `s'`, which is in the same call of the
same function and has left what was on the stack there. -/
structure Reaches (h : Host) (s s' : Vm) : Prop where
  run : ∃ n, turns h n s = .ok s'
  func : s'.func = s.func
  frames : ∀ k < s.frameTop, s'.frames k = s.frames k
  frameTop : s'.frameTop = s.frameTop
  stackTop : s.stackTop ≤ s'.stackTop
  stack : ∀ i < s.stackTop, s'.stack i = s.stack i

/-- There are `n` more values on the stack then, and `pc` is next. -/
structure Comes (h : Host) (s s' : Vm) (n pc : Nat) : Prop extends Reaches h s s' where
  values : s'.stackTop = s.stackTop + n
  pc : s'.pc = pc

variable {h : Host} {s s' s'' : Vm} {m n pc pc' : Nat}

theorem Reaches.refl : s.Reaches h s :=
  ⟨⟨0, rfl⟩, rfl, fun _ _ => rfl, rfl, Nat.le_refl _, fun _ _ => rfl⟩

theorem Reaches.trans (hs : s.Reaches h s') (hs' : s'.Reaches h s'') : s.Reaches h s'' where
  run := by
    obtain ⟨m, hm⟩ := hs.run
    obtain ⟨n, hn⟩ := hs'.run
    exact ⟨m + n, (turns_add n hm).trans hn⟩
  func := hs'.func.trans hs.func
  frames := fun k hk => (hs'.frames k (hs.frameTop ▸ hk)).trans (hs.frames k hk)
  frameTop := hs'.frameTop.trans hs.frameTop
  stackTop := Nat.le_trans hs.stackTop hs'.stackTop
  stack := fun i hi => (hs'.stack i (Nat.lt_of_lt_of_le hi hs.stackTop)).trans (hs.stack i hi)

theorem Comes.trans (hs : s.Comes h s' m pc) (hs' : s'.Comes h s'' n pc') :
    s.Comes h s'' (m + n) pc' where
  toReaches := hs.toReaches.trans hs'.toReaches
  values := by rw [hs'.values, hs.values, Nat.add_assoc]
  pc := hs'.pc

theorem Pushed.comes (hp : s.Pushed s' n m pc) (hstep : s.step h = .ok s') :
    s.Comes h s' n pc where
  run := ⟨1, by rw [turns, hstep]; rfl⟩
  func := hp.func
  frames := fun k _ => congrFun hp.frames k
  frameTop := hp.frameTop
  stackTop := hp.stackTop ▸ Nat.le_add_right ..
  stack := hp.stack
  values := hp.stackTop
  pc := hp.pc

theorem Reaches.frame (hs : s.Reaches h s') {frame : Frame} (hframe : s.frame = .ok frame) :
    s'.frame = .ok frame := by
  obtain ⟨_, hpos, hframe'⟩ := Outcome.bind_eq_ok.mp hframe
  have hlt := of_decide_eq_true (Outcome.require_eq_ok.mp hpos)
  rw [Vm.frame, hs.frameTop, hpos, Outcome.ok_bind, hs.frames _ (by omega)]
  exact hframe'

theorem keepsData_turns (hnative : NativesKeep h) : ∀ (n : Nat) {s : Vm},
    s.KeepsData (turns h n s)
  | 0, _ => Outcome.ensures_ok .rfl
  | n + 1, _ => .bind fun s1 h1 s' hs' =>
      (keepsData_step hnative s1 h1).trans (keepsData_turns hnative n s' hs')

theorem Reaches.keepsData (hnative : NativesKeep h) (hs : s.Reaches h s') :
    s.world.KeepsData s'.world := by
  obtain ⟨n, hn⟩ := hs.run
  exact keepsData_turns hnative n s' hn

end Vm

/-! ## Filling a template -/

/-- From `s` on, code in the scope `ctx` can build templates with the literals
and the holes: the constants that its instructions pick are the literals;
wherever it comes to, the global `list` is the native and there is memory for
a list; and the code of a hole leaves a value. -/
structure Fillable (h : Host) (env : GenEnv) (ctx : Ctx) (K : List Const) (code : List Instr)
    (s : Vm) (lits : List Literal) (es : List Sexp) : Prop where
  inst : ∀ (pc : Nat) (i : Instr), code[pc]? = some i → s.func.prot.inst[pc]? = some (asInst i)
  held : ∀ lit ∈ lits, ∀ a, Picks K lit.const a →
    ∃ v, s.func.constants[a % 256]? = some v ∧ lit.Denotes s.world v
  list : ∀ s1, s.Reaches h s1 → ∀ a, Picks K (.string listAtom) a →
    ∃ f, getGlobal s1.world s1.func (a % 256) = .ok f ∧ f.type = .nativefunc ∧ RunsList h f.obj
  memory : ∀ s1, s.Reaches h s1 → s1.world.objects.length + 255 < 2 ^ 64
  hole : ∀ e ∈ es, ∀ lo hi s1, GeneratedAt env ctx code K e lo hi → s.Reaches h s1 → s1.pc = lo →
    ∃ s2, s1.Comes h s2 1 hi

/-- From `lo` to `hi` is what was generated for the expression in the scope
`ctx`, and run on the way from `s` this code left the value. -/
def Evaluated (h : Host) (env : GenEnv) (ctx : Ctx) (K : List Const) (code : List Instr) (s : Vm)
    (e : Sexp) (lo hi : Nat) (v : Value) : Prop :=
  GeneratedAt env ctx code K e lo hi ∧ ∃ s1 s2, s.Reaches h s1 ∧ s1.pc = lo
    ∧ s1.Comes h s2 1 hi ∧ v = s2.stack s1.stackTop

section Fill

variable {h : Host} {env : GenEnv} {ctx : Ctx} {K : List Const} {code : List Instr} {s : Vm}
  {lits : List Literal} {es : List Sexp}

/-- An atom is pushed. -/
theorem Fillable.push (hf : Fillable h env ctx K code s lits es) (hnative : Vm.NativesKeep h)
    {lit : Literal} (hlit : lit ∈ lits) {s1 : Vm} (hs1 : s.Reaches h s1) {a : Nat}
    (hpicks : Picks K lit.const a) (hat : code[s1.pc]? = some { op := .push, a := a })
    (hroom : s1.stackTop + 1 ≤ stackSize) :
    ∃ s2, s1.Comes h s2 1 (s1.pc + 1) ∧ lit.Denotes s2.world (s2.stack s1.stackTop) := by
  obtain ⟨v, hv, hden⟩ := hf.held lit hlit a hpicks
  obtain ⟨s2, hstep, hp, hstack⟩ := Vm.step_pushConst (h := h) (s := s1)
    (by rw [hs1.func]; exact hf.inst _ _ hat) (by rw [hs1.func]; exact hv) hroom
  have hcomes := hp.comes hstep
  refine ⟨s2, hcomes, ?_⟩
  rw [hstack, Function.update_self]
  exact hden.kept ((hs1.trans hcomes.toReaches).keepsData hnative)

/-- The function `list` and the elements are on the stack, given that the
elements come after it. -/
theorem Fillable.elements (hf : Fillable h env ctx K code s lits es) {ts : List Template}
    {s1 : Vm} (hs1 : s.Reaches h s1) {mid : Nat} (hget : GetsList code K s1.pc)
    (hroom : s1.stackTop + (Template.heightAll ts + 1) ≤ stackSize)
    (hall : ∀ s2, s.Reaches h s2 → s2.stackTop + Template.heightAll ts ≤ stackSize →
      s2.pc = s1.pc + 1 → ∃ s3, s2.Comes h s3 ts.length mid
        ∧ Template.FilledAll s3.world (Evaluated h env ctx K code s) ts (s1.pc + 1) mid
          (s3.window s2.stackTop ts.length)) :
    ∃ s3, s1.Comes h s3 (ts.length + 1) mid ∧ (s3.stack s1.stackTop).type = .nativefunc
      ∧ RunsList h (s3.stack s1.stackTop).obj
      ∧ Template.FilledAll s3.world (Evaluated h env ctx K code s) ts (s1.pc + 1) mid
        (s3.window (s1.stackTop + 1) ts.length) := by
  obtain ⟨a, hpicks, hat⟩ := hget
  obtain ⟨f, hfound, htype, hlist⟩ := hf.list s1 hs1 a hpicks
  obtain ⟨s2, hstep, hp, hstack⟩ := Vm.step_getglobal (h := h) (s := s1)
    (by rw [hs1.func]; exact hf.inst _ _ hat) hfound (by omega)
  have hcomes := hp.comes hstep
  obtain ⟨s3, hcomes3, hfilled⟩ := hall s2 (hs1.trans hcomes.toReaches)
    (by rw [hp.stackTop]; omega) hp.pc
  have hf3 : s3.stack s1.stackTop = f := by
    rw [hcomes3.stack _ (by rw [hp.stackTop]; exact Nat.lt_succ_self _), hstack,
      Function.update_self]
  rw [hp.stackTop] at hfilled
  exact ⟨s3, Nat.add_comm 1 _ ▸ hcomes.trans hcomes3, hf3 ▸ htype, hf3 ▸ hlist, hfilled⟩

mutual

/-- The code of a template leaves what it makes on the stack. -/
theorem TemplateAt.run (hf : Fillable h env ctx K code s lits es) (hnative : Vm.NativesKeep h) :
    ∀ {t : Template} {lo hi : Nat} {s1 : Vm},
      TemplateAt code K (GetsList code K) (GeneratedAt env ctx code K) .call t lo hi → t.Narrow →
      t.literals ⊆ lits → t.holes ⊆ es → s.Reaches h s1 → s1.stackTop + t.height ≤ stackSize →
      s1.pc = lo → ∃ s2, s1.Comes h s2 1 hi
        ∧ t.Filled s2.world (Evaluated h env ctx K code s) lo hi (s2.stack s1.stackTop)
  | .number n, lo, hi, s1, ⟨hhi, a, hpicks, hat⟩, _, hlits, _, hs1, hroom, hpc => by
      subst hpc hhi
      obtain ⟨s2, hcomes, hden⟩ :=
        hf.push hnative (hlits (List.mem_singleton_self _)) hs1 hpicks hat hroom
      exact ⟨s2, hcomes, rfl, hden⟩
  | .symbol sym, lo, hi, s1, ⟨hhi, a, hpicks, hat⟩, _, hlits, _, hs1, hroom, hpc => by
      subst hpc hhi
      rw [← Datum.const_symbolLiteral] at hpicks
      obtain ⟨s2, hcomes, hden⟩ :=
        hf.push hnative (hlits (List.mem_singleton_self _)) hs1 hpicks hat hroom
      exact ⟨s2, hcomes, rfl, hden⟩
  | .hole e, lo, hi, s1, hat, _, _, hes, hs1, _, hpc => by
      obtain ⟨s2, hcomes⟩ := hf.hole e (hes (List.mem_singleton_self _)) lo hi s1 hat hs1 hpc
      exact ⟨s2, hcomes, hat, s1, s2, hs1, hpc, hcomes, rfl⟩
  | .list ts, lo, hi, s1, ⟨hne, mid, hhi, hget, hall, hcall⟩, hn, hlits, hes, hs1, hroom, hpc => by
      subst hpc hhi
      obtain ⟨s3, hcomes, htype, hlist, hfilled⟩ := hf.elements hs1 hget hroom
        fun s2 hs2 hroom2 hpc2 =>
          templatesAt_run hf hnative hall hn.2 hlits hes hs2 hroom2 hpc2
      have hs3 := hs1.trans hcomes.toReaches
      have hmem := hf.memory s3 hs3
      obtain ⟨s4, hstep, hadds, hfunc, hframes, hframeTop, hpc4, htop, hstack, hchain⟩ :=
        Vm.step_callChain (h := h) (List.length_pos_of_ne_nil hne) hn.1
          (by rw [hs3.func, hcomes.pc]; exact hf.inst _ _ hcall) hcomes.values htype hlist
          (by have := hn.1; omega)
      have hreach : s1.Reaches h s4 := by
        refine ⟨?_, hfunc.trans hcomes.func, fun k hk => ?_, hframeTop.trans hcomes.frameTop,
          htop ▸ Nat.le_add_right .., fun i hi => (hstack i hi).trans (hcomes.stack i hi)⟩
        · obtain ⟨n, hrun⟩ := hcomes.run
          exact ⟨n + 1, by rw [Vm.turns_add 1 hrun, Vm.turns, hstep]; rfl⟩
        · rw [hframes]
          exact hcomes.frames k hk
      refine ⟨s4, ⟨hreach, htop, by rw [hpc4, hcomes.pc]⟩, mid, _, rfl, hchain, ?_⟩
      exact Template.filledAll_kept hadds.objects.keepsData hfilled

theorem templatesAt_run (hf : Fillable h env ctx K code s lits es) (hnative : Vm.NativesKeep h) :
    ∀ {ts : List Template} {lo hi : Nat} {s1 : Vm},
      TemplatesAt code K (GetsList code K) (GeneratedAt env ctx code K) ts lo hi →
      Template.NarrowAll ts → Template.literalsAll ts ⊆ lits → Template.holesAll ts ⊆ es →
      s.Reaches h s1 → s1.stackTop + Template.heightAll ts ≤ stackSize → s1.pc = lo →
      ∃ s2, s1.Comes h s2 ts.length hi
        ∧ Template.FilledAll s2.world (Evaluated h env ctx K code s) ts lo hi
          (s2.window s1.stackTop ts.length)
  | [], lo, hi, s1, hhi, _, _, _, _, _, hpc => by
      obtain rfl : hi = lo := hhi
      exact ⟨s1, ⟨.refl, rfl, hpc⟩, rfl, rfl⟩
  | t :: ts, lo, hi, s1, ⟨mid, ht, hts⟩, hn, hlits, hes, hs1, hroom, hpc => by
      rw [Template.heightAll] at hroom
      obtain ⟨s2, hcomes, hfilled⟩ := TemplateAt.run hf hnative ht hn.1
        (fun _ hm => hlits (List.mem_append_left _ hm))
        (fun _ hm => hes (List.mem_append_left _ hm)) hs1 (by omega) hpc
      obtain ⟨s3, hcomes3, hfilled3⟩ := templatesAt_run hf hnative hts hn.2
        (fun _ hm => hlits (List.mem_append_right _ hm))
        (fun _ hm => hes (List.mem_append_right _ hm)) (hs1.trans hcomes.toReaches)
        (by rw [hcomes.values]; omega) hcomes.pc
      have hboth := hcomes.trans hcomes3
      rw [Nat.add_comm 1] at hboth
      refine ⟨s3, hboth, mid, s3.stack s1.stackTop, s3.window (s1.stackTop + 1) ts.length,
        slice_succ .., ?_, hcomes.values ▸ hfilled3⟩
      rw [hcomes3.stack _ (by rw [hcomes.values]; exact Nat.lt_succ_self _)]
      exact hfilled.kept (hcomes3.keepsData hnative)

end

/-- The code of a list with holes leaves the list with their values, in
whichever way it calls `list` last. -/
theorem TemplateAt.fills {ts : List Template} {op : Op} {tail : Bool}
    (hop : op = .call ∨ op = .tcall ∧ tail = true) {hi : Nat}
    (hat : TemplateAt code K (GetsList code K) (GeneratedAt env ctx code K) op (.list ts) s.pc hi)
    (hn : (Template.list ts).Narrow) (hroom : s.stackTop + (Template.list ts).height ≤ stackSize)
    (hframe : tail = true → ∃ frame, s.frame = .ok frame ∧ frame.stackTop ≤ s.stackTop)
    (hf : Fillable h env ctx K code s (Template.list ts).literals (Template.list ts).holes)
    (hnative : Vm.NativesKeep h) :
    ∃ n s', Vm.turns h n s = .ok s' ∧ 0 < s'.stackTop
      ∧ (Template.list ts).Filled s'.world (Evaluated h env ctx K code s) s.pc hi
        (s'.stack (s'.stackTop - 1)) := by
  rcases hop with rfl | ⟨rfl, htail⟩
  · obtain ⟨s', hcomes, hfilled⟩ := hat.run hf hnative hn (List.Subset.refl _)
      (List.Subset.refl _) .refl hroom rfl
    obtain ⟨n, hrun⟩ := hcomes.run
    exact ⟨n, s', hrun, by rw [hcomes.values]; omega,
      by rwa [hcomes.values, Nat.add_sub_cancel]⟩
  · obtain ⟨hne, mid, hhi, hget, hall, hcall⟩ := hat
    obtain ⟨frame, hframe, hle⟩ := hframe htail
    obtain ⟨s3, hcomes, htype, hlist, hfilled⟩ := hf.elements .refl hget hroom
      fun s2 hs2 hroom2 hpc2 => templatesAt_run hf hnative hall hn.2 (List.Subset.refl _)
        (List.Subset.refl _) hs2 hroom2 hpc2
    have hmem := hf.memory s3 hcomes.toReaches
    have hheight := Template.length_lt_height ts
    rw [Template.height] at hroom
    obtain ⟨s4, hstep, hadds, htop, hchain⟩ := Vm.step_tcallChain (h := h)
      (List.length_pos_of_ne_nil hne) hn.1
      (by rw [hcomes.func, hcomes.pc]; exact hf.inst _ _ hcall) (hcomes.frame hframe) hle
      hcomes.values (by rw [hcomes.values]; omega) htype hlist (by have := hn.1; omega)
    obtain ⟨n, hrun⟩ := hcomes.run
    refine ⟨n + 1, s4, ?_, by rw [htop]; omega, ?_⟩
    · rw [Vm.turns_add 1 hrun, Vm.turns, hstep]
      rfl
    · rw [htop, Nat.add_sub_cancel]
      exact ⟨mid, _, hhi, hchain, Template.filledAll_kept hadds.objects.keepsData hfilled⟩

end Fill

end Saurus
