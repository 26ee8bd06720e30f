import Saurus.Format.Tree
import Saurus.Gc.Safety

/-!
# The code of a closure

`su_load` registers one object for a whole file, its outermost prototype.
The prototypes of nested lambdas lie in arrays that this object owns, and
`free_prot` releases all of them with it. A closure over the outermost
prototype marks it; a closure over a nested one does not, since nothing
leads from a nested prototype to the object it lies in.

Files are numbered in the order of loading, and a prototype is named by the
number of its file and its path in there; an address alone would not do,
because the allocator gives out released memory again.
-/

namespace Saurus

open Basis GcState

/-! ## Prototypes inside prototypes -/

mutual

/-- `free_prot`: the prototypes whose arrays it releases. -/
def freeProt : Proto → List (List Nat)
  | .mk _ _ _ prot _ _ => [] :: freeProts 0 prot

/-- Its loop over `prot->prot`, from `i` on. -/
def freeProts : Nat → List Proto → List (List Nat)
  | _, [] => []
  | i, p :: ps => (freeProt p).map (i :: ·) ++ freeProts (i + 1) ps

end

mutual

/-- It reaches every prototype of the file. -/
theorem mem_freeProt : ∀ (p : Proto) (path : List Nat),
    path ∈ freeProt p ↔ (p.at? path).isSome
  | .mk i c u prot n l, [] => by
      rw [freeProt]
      exact iff_of_true (List.mem_cons_self ..) rfl
  | .mk i c u prot n l, j :: path => by
      rw [freeProt, List.mem_cons, mem_freeProts 0 prot j path, Proto.at?, Proto.prot,
        Nat.sub_zero]
      simp only [reduceCtorEq, false_or, Nat.zero_le, true_and]
      cases prot[j]? <;> simp

theorem mem_freeProts : ∀ (i : Nat) (ps : List Proto) (j : Nat) (path : List Nat),
    j :: path ∈ freeProts i ps ↔ i ≤ j ∧ ∃ q, ps[j - i]? = some q ∧ (q.at? path).isSome
  | i, [], j, path => by
      rw [freeProts]
      simp
  | i, p :: ps, j, path => by
      have hhead : (∃ x ∈ freeProt p, i :: x = j :: path) ↔ i = j ∧ (p.at? path).isSome := by
        rw [← mem_freeProt p path]
        constructor
        · rintro ⟨x, hx, heq⟩
          obtain ⟨rfl, rfl⟩ := List.cons.inj heq
          exact ⟨rfl, hx⟩
        · rintro ⟨rfl, hx⟩
          exact ⟨path, hx, rfl⟩
      rw [freeProts, List.mem_append, mem_freeProts (i + 1) ps j path, List.mem_map, hhead]
      rcases Nat.lt_trichotomy i j with hlt | rfl | hgt
      · have hsucc : j - i = j - (i + 1) + 1 := by omega
        rw [hsucc, List.getElem?_cons_succ]
        simp [Nat.ne_of_lt hlt, Nat.le_of_lt hlt, Nat.succ_le_of_lt hlt]
      · have hno : ¬ i + 1 ≤ i := Nat.not_succ_le_self i
        simp [hno]
      · simp [Nat.ne_of_gt hgt, Nat.not_le.mpr hgt, Nat.not_le.mpr (Nat.lt_succ_of_lt hgt)]

end

/-! ## The heap with its code -/

/-- The heap, the files loaded so far, the file of each prototype object, the
file and path of each closure's `prot`, and what `free_prot` has released. -/
structure CodeState where
  heap : GcState
  files : List Proto
  file : Addr → Nat
  code : Addr → Nat × List Nat
  released : List (Nat × List Nat)

/-- The bodies that nothing writes to once they are made. -/
def codeBody : GcBody → Option GcBody
  | .function prot constants upvalues => some (.function prot constants upvalues)
  | .prototype => some .prototype
  | _ => none

def isFunction : GcBody → Bool
  | .function _ _ _ => true
  | _ => false

/-- What an instruction or API call does to the heap when it makes no
prototype and no closure. -/
structure Rewrites (s s' : GcState) : Prop where
  gray : s'.gray = s.gray
  nodup : (s'.objects.map (·.addr)).Nodup
  objects : ∃ new kept, s'.objects = new ++ kept
    ∧ (∀ o ∈ new, o.flag = .trans ∧ codeBody o.body = none)
    ∧ kept.map (fun o => (o.addr, o.flag, codeBody o.body))
      = s.objects.map fun o => (o.addr, o.flag, codeBody o.body)

def ProtAt (s : GcState) (a : Addr) : Prop :=
  ∃ o ∈ s.objects, o.addr = a ∧ o.body = .prototype

def ClosureAt (s : GcState) (a : Addr) : Prop :=
  ∃ o ∈ s.objects, o.addr = a ∧ isFunction o.body = true

/-- The prototypes `end` frees on the way from `s` to `s'`. -/
def freedProts (s s' : GcState) : List Addr :=
  (s.objects.filter fun o => o.body = .prototype ∧ o.addr ∉ s'.objects.map (·.addr)).map (·.addr)

/-- The prototypes that go with the object at `a`. -/
def CodeState.fileAt (c : CodeState) (a : Addr) : List (Nat × List Nat) :=
  match c.files[c.file a]? with
  | some p => (freeProt p).map (c.file a, ·)
  | none => []

/-- After a collection: `free_object` has called `free_prot`. -/
def CodeState.sweep (c : CodeState) (s' : GcState) : CodeState :=
  { c with heap := s', released := c.released ++ (freedProts c.heap s').flatMap c.fileAt }

/-- A step that is not a collection. -/
inductive CodeStep : CodeState → CodeState → Prop where
  /-- `su_load` has read a file and registers its outermost prototype. -/
  | load {c : CodeState} (a : Addr) (p : Proto) : a ∉ c.heap.objects.map (·.addr) →
      CodeStep c { c with
        heap := gcInsertObject c.heap a .prototype
        files := c.files ++ [p]
        file := Function.update c.file a c.files.length }
  /-- `lambda(s, prot, -1)` at the end of `su_load`. -/
  | outer {c : CodeState} (a : Addr) {q : Addr} (constants upvalues : List Value) :
      a ∉ c.heap.objects.map (·.addr) → ProtAt c.heap q →
      CodeStep c { c with
        heap := gcInsertObject c.heap a (.function (some q) constants upvalues)
        code := Function.update c.code a (c.file q, []) }
  /-- `OP_LAMBDA` in the closure at `f`: `lambda(s, &s->prot->prot[i], narg)`. -/
  | inner {c : CodeState} (a : Addr) {f : Addr} {i : Nat} {p : Proto}
      (constants upvalues : List Value) :
      a ∉ c.heap.objects.map (·.addr) → ClosureAt c.heap f →
      c.files[(c.code f).1]? = some p → (p.at? ((c.code f).2 ++ [i])).isSome →
      CodeStep c { c with
        heap := gcInsertObject c.heap a (.function none constants upvalues)
        code := Function.update c.code a ((c.code f).1, (c.code f).2 ++ [i]) }
  | rewrite {c : CodeState} {s' : GcState} : Rewrites c.heap s' →
      CodeStep c { c with heap := s' }

/-- No closure on the list has lost its prototype. -/
def KeepsCode (c : CodeState) : Prop := ∀ a, ClosureAt c.heap a → c.code a ∉ c.released

/-- A cycle keeps the object at `a`: it is new, or old and reached along old
objects. -/
def Kept (s : GcState) (a : Addr) : Prop :=
  (∃ o ∈ s.objects, o.addr = a ∧ o.flag = .trans) ∨ ReachedOld s a

/-- With every closure the prototype object of its file is kept. -/
def FilesKept (c : CodeState) : Prop :=
  ∀ a, ClosureAt c.heap a → Kept c.heap a →
    ∃ q, ProtAt c.heap q ∧ c.file q = (c.code a).1 ∧ Kept c.heap q

/-- States reached from `su_init` when `P` holds of the states in which a
collection starts. -/
inductive CodeRun (P : CodeState → Prop) : CodeState → Prop where
  | init (p : Nat → Addr) (hp : ((List.range 10).map p).Nodup) (file : Addr → Nat)
      (code : Addr → Nat × List Nat) : CodeRun P ⟨suInit p, [], file, code, []⟩
  | step {c c' : CodeState} : CodeRun P c → CodeStep c c' → CodeRun P c'
  | collect {c : CodeState} {s' : GcState} : CodeRun P c → P c → Cycle c.heap s' →
      CodeRun P (c.sweep s')

/-! ## What a step does to prototypes and closures -/

variable {s s' : GcState} {a b : Addr}

theorem protAt_insert {body : GcBody} :
    ProtAt (gcInsertObject s a body) b ↔ a = b ∧ body = .prototype ∨ ProtAt s b := by
  simp only [ProtAt, gcInsertObject, List.mem_cons, exists_eq_or_imp]

theorem closureAt_insert {body : GcBody} :
    ClosureAt (gcInsertObject s a body) b
      ↔ a = b ∧ isFunction body = true ∨ ClosureAt s b := by
  simp only [ClosureAt, gcInsertObject, List.mem_cons, exists_eq_or_imp]

theorem ProtAt.mem (h : ProtAt s a) : a ∈ s.objects.map (·.addr) := by
  obtain ⟨o, ho, rfl, -⟩ := h
  exact List.mem_map_of_mem ho

theorem ClosureAt.mem (h : ClosureAt s a) : a ∈ s.objects.map (·.addr) := by
  obtain ⟨o, ho, rfl, -⟩ := h
  exact List.mem_map_of_mem ho

theorem codeBody_prototype {body : GcBody} :
    body = .prototype ↔ codeBody body = some .prototype := by
  cases body <;> simp [codeBody]

theorem isFunction_iff {body : GcBody} :
    isFunction body = true ↔ ∃ b, codeBody body = some b ∧ isFunction b = true := by
  cases body <;> simp [codeBody, isFunction]

/-- An object with code is at `a`. -/
def CodeAt (s : GcState) (a : Addr) (b : GcBody) : Prop :=
  ∃ o ∈ s.objects, o.addr = a ∧ codeBody o.body = some b

theorem protAt_iff : ProtAt s a ↔ CodeAt s a .prototype := by
  simp only [ProtAt, CodeAt, codeBody_prototype]

theorem closureAt_iff : ClosureAt s a ↔ ∃ b, CodeAt s a b ∧ isFunction b = true := by
  constructor
  · rintro ⟨o, ho, ha, hf⟩
    obtain ⟨b, hb, hf⟩ := isFunction_iff.mp hf
    exact ⟨b, ⟨o, ho, ha, hb⟩, hf⟩
  · rintro ⟨b, ⟨o, ho, ha, hb⟩, hf⟩
    exact ⟨o, ho, ha, isFunction_iff.mpr ⟨b, hb, hf⟩⟩

theorem Rewrites.codeAt (h : Rewrites s s') (b : GcBody) : CodeAt s' a b ↔ CodeAt s a b := by
  obtain ⟨new, kept, hobjects, hnew, hkept⟩ := h.objects
  have hmem : ∀ {l : List GcObject}, (∃ o ∈ l, o.addr = a ∧ codeBody o.body = some b)
      ↔ ∃ f, (a, f, some b) ∈ l.map fun o => (o.addr, o.flag, codeBody o.body) := by
    intro l
    constructor
    · rintro ⟨o, ho, rfl, hb⟩
      exact ⟨o.flag, List.mem_map.mpr ⟨o, ho, by rw [hb]⟩⟩
    · rintro ⟨f, hf⟩
      obtain ⟨o, ho, heq⟩ := List.mem_map.mp hf
      simp only [Prod.mk.injEq] at heq
      exact ⟨o, ho, heq.1, heq.2.2⟩
  have hkept' : CodeAt s' a b ↔ ∃ o ∈ kept, o.addr = a ∧ codeBody o.body = some b := by
    rw [CodeAt, hobjects]
    constructor
    · rintro ⟨o, ho, ha, hb⟩
      rcases List.mem_append.mp ho with ho | ho
      · rw [(hnew o ho).2] at hb
        cases hb
      · exact ⟨o, ho, ha, hb⟩
    · rintro ⟨o, ho, ha, hb⟩
      exact ⟨o, List.mem_append_right _ ho, ha, hb⟩
  rw [hkept', hmem, hkept, ← hmem]
  rfl

theorem Rewrites.mutates (h : Rewrites s s') : Mutates s s' := by
  obtain ⟨new, kept, hobjects, hnew, hkept⟩ := h.objects
  refine ⟨h.gray, h.nodup, new, kept, hobjects, fun o ho => (hnew o ho).1, ?_⟩
  have hflags := congrArg (List.map fun x : Addr × GcFlag × Option GcBody => (x.1, x.2.1)) hkept
  rw [List.map_map, List.map_map] at hflags
  exact hflags

theorem mutates_insert (hq : Quiescent s) (ha : a ∉ s.objects.map (·.addr)) (body : GcBody) :
    Mutates s (gcInsertObject s a body) := by
  refine ⟨rfl, List.nodup_cons.mpr ⟨ha, hq.nodup⟩, [⟨a, .trans, body⟩], s.objects, rfl, ?_, rfl⟩
  intro o ho
  rw [List.mem_singleton.mp ho]

/-! ## What a collection does to them -/

theorem Live.kept_iff (hs : GcRun s) (hc : Cycle s s') (h : Live s a) : Live s' a ↔ Kept s a := by
  have hq := hs.quiescent
  obtain ⟨s1, s2, h1, h2, rfl⟩ := hc.phases hq
  obtain ⟨hframe, -, hmarked⟩ := marked_iff hq h1 h2
  obtain ⟨o, ho, rfl⟩ := h
  rw [survives_iff hq.nodup hframe ho, hmarked o ho]
  refine or_congr_left ⟨fun hf => ⟨o, ho, rfl, hf⟩, ?_⟩
  rintro ⟨x, hx, haddr, hf⟩
  have hlook := lookup_of_mem hq.nodup hx
  rw [haddr, lookup_of_mem hq.nodup ho] at hlook
  rwa [← Option.some.inj hlook] at hf

/-- Objects that are left have the bodies they had. -/
theorem Cycle.codeAt (hs : GcRun s) (hc : Cycle s s') (b : GcBody) :
    CodeAt s' a b ↔ CodeAt s a b ∧ Live s' a := by
  have hq := hs.quiescent
  obtain ⟨s1, s2, h1, h2, rfl⟩ := hc.phases hq
  obtain ⟨hframe, -, -⟩ := marked_iff hq h1 h2
  have hbody : ∀ {x : GcBody}, (∃ o ∈ s.objects, o.addr = a ∧ o.body = x)
      ↔ ∃ o ∈ s2.objects, o.addr = a ∧ o.body = x := by
    intro x
    have hmem : ∀ l : List GcObject, (∃ o ∈ l, o.addr = a ∧ o.body = x)
        ↔ (a, x) ∈ l.map fun o => (o.addr, o.body) := by
      intro l
      simp only [List.mem_map, Prod.mk.injEq]
    rw [hmem, hmem, hframe.objects]
  have hnodup2 : (s2.objects.map (·.addr)).Nodup := hframe.addrs ▸ hq.nodup
  constructor
  · rintro ⟨o, ho, ha, hb⟩
    refine ⟨?_, o, ho, ha⟩
    obtain ⟨x, hx, rfl⟩ := List.mem_map.mp ho
    obtain ⟨y, hy, hya, hyb⟩ := hbody.mpr ⟨x, (List.mem_filter.mp hx).1, ha, rfl⟩
    exact ⟨y, hy, hya, hyb ▸ hb⟩
  · rintro ⟨⟨o, ho, ha, hb⟩, o', ho', ha'⟩
    obtain ⟨x, hx, rfl⟩ := List.mem_map.mp ho'
    obtain ⟨y, hy, hya, hyb⟩ := hbody.mp ⟨o, ho, ha, rfl⟩
    have hxy : x = y := by
      have hlook := lookup_of_mem hnodup2 (List.mem_filter.mp hx).1
      rw [show x.addr = y.addr from ha'.trans hya.symm, lookup_of_mem hnodup2 hy] at hlook
      exact (Option.some.inj hlook).symm
    refine ⟨_, ho', ha', ?_⟩
    rw [← hb, ← hyb, ← hxy]

theorem Cycle.protAt (hs : GcRun s) (hc : Cycle s s') : ProtAt s' a ↔ ProtAt s a ∧ Kept s a := by
  rw [protAt_iff, hc.codeAt hs, protAt_iff]
  refine and_congr_right fun h => Live.kept_iff hs hc ?_
  obtain ⟨o, ho, ha, -⟩ := h
  exact ⟨o, ho, ha⟩

theorem Cycle.closureAt (hs : GcRun s) (hc : Cycle s s') :
    ClosureAt s' a ↔ ClosureAt s a ∧ Kept s a := by
  have hlive : ClosureAt s a → (Live s' a ↔ Kept s a) := by
    rintro ⟨o, ho, ha, -⟩
    exact Live.kept_iff hs hc ⟨o, ho, ha⟩
  rw [← and_congr_right hlive, closureAt_iff, closureAt_iff]
  constructor
  · rintro ⟨b, hb, hf⟩
    obtain ⟨hb, hl⟩ := (hc.codeAt hs b).mp hb
    exact ⟨⟨b, hb, hf⟩, hl⟩
  · rintro ⟨⟨b, hb, hf⟩, hl⟩
    exact ⟨b, (hc.codeAt hs b).mpr ⟨hb, hl⟩, hf⟩

theorem mem_freedProts (hs : GcRun s) (hc : Cycle s s') :
    a ∈ freedProts s s' ↔ ProtAt s a ∧ ¬ Kept s a := by
  have hmem : a ∈ freedProts s s' ↔ ProtAt s a ∧ ¬ Live s' a := by
    simp only [freedProts, List.mem_map, List.mem_filter, decide_eq_true_eq, ProtAt, Live]
    constructor
    · rintro ⟨o, ⟨ho, hb, hno⟩, rfl⟩
      exact ⟨⟨o, ho, rfl, hb⟩, hno⟩
    · rintro ⟨⟨o, ho, rfl, hb⟩, hno⟩
      exact ⟨o, ⟨ho, hb, hno⟩, rfl⟩
  rw [hmem]
  refine and_congr_right fun h => not_congr (Live.kept_iff hs hc ?_)
  obtain ⟨o, ho, ha, -⟩ := h
  exact ⟨o, ho, ha⟩

/-! ## Files and their objects -/

/-- The prototype at `path` in file `n`. -/
def CodeState.Has (c : CodeState) (n : Nat) (path : List Nat) : Prop :=
  ∃ p, c.files[n]? = some p ∧ (p.at? path).isSome

/-- How files, prototype objects and released prototypes go together: a file
has its object, or all of it has been released. -/
structure FilesOk (c : CodeState) : Prop where
  run : GcRun c.heap
  file : ∀ q, ProtAt c.heap q → c.file q < c.files.length
  unique : ∀ q r, ProtAt c.heap q → ProtAt c.heap r → c.file q = c.file r → q = r
  kept : ∀ q, ProtAt c.heap q → ∀ path, (c.file q, path) ∉ c.released
  gone : ∀ n path, c.Has n path →
    (∃ q, ProtAt c.heap q ∧ c.file q = n) ∨ (n, path) ∈ c.released
  old : ∀ x ∈ c.released, x.1 < c.files.length
  code : ∀ a, ClosureAt c.heap a → c.Has (c.code a).1 (c.code a).2

variable {c c' : CodeState}

theorem has_of_append {p : Proto} {n : Nat} {path : List Nat} (h : c.Has n path) :
    CodeState.Has { c with files := c.files ++ [p] } n path := by
  obtain ⟨q, hq, hpath⟩ := h
  exact ⟨q, List.getElem?_append_left (List.getElem?_eq_some_iff.mp hq).1 ▸ hq, hpath⟩

theorem Has.lt {n : Nat} {path : List Nat} (h : c.Has n path) : n < c.files.length := by
  obtain ⟨q, hq, -⟩ := h
  exact (List.getElem?_eq_some_iff.mp hq).1

theorem not_code_init (p : Nat → Addr) (a : Addr) :
    ¬ ProtAt (suInit p) a ∧ ¬ ClosureAt (suInit p) a := by
  constructor <;> rintro ⟨o, ho, -, hb⟩ <;>
    simp only [suInit, gcInsertObject, List.mem_cons, List.not_mem_nil, or_false] at ho <;>
    rcases ho with rfl | rfl | rfl | rfl | rfl | rfl | rfl | rfl | rfl | rfl <;> cases hb

theorem filesOk_init {p : Nat → Addr} (hp : ((List.range 10).map p).Nodup) (file : Addr → Nat)
    (code : Addr → Nat × List Nat) : FilesOk ⟨suInit p, [], file, code, []⟩ := by
  have hprot := fun q => (not_code_init p q).1
  have hclosure := fun q => (not_code_init p q).2
  exact {
    run := .init p hp
    file := fun q h => absurd h (hprot q)
    unique := fun q _ h => absurd h (hprot q)
    kept := fun q h => absurd h (hprot q)
    gone := fun n path ⟨q, hq, _⟩ => nomatch hq
    old := fun x h => absurd h List.not_mem_nil
    code := fun a h => absurd h (hclosure a) }

/-- The prototype object of a new file. -/
theorem FilesOk.load (h : FilesOk c) {a : Addr} (ha : a ∉ c.heap.objects.map (·.addr))
    (p : Proto) : FilesOk { c with
      heap := gcInsertObject c.heap a .prototype
      files := c.files ++ [p]
      file := Function.update c.file a c.files.length } := by
  have hne : ∀ {q}, ProtAt c.heap q → q ≠ a := fun hq heq => ha (heq ▸ hq.mem)
  have hprot : ∀ {q}, ProtAt (gcInsertObject c.heap a .prototype) q → q = a ∨ ProtAt c.heap q :=
    fun hq => (protAt_insert.mp hq).imp (fun h => h.1.symm) id
  have hfile : ∀ {q}, ProtAt c.heap q → Function.update c.file a c.files.length q = c.file q :=
    fun hq => Function.update_of_ne (hne hq) ..
  have hself : Function.update c.file a c.files.length a = c.files.length :=
    Function.update_self ..
  have hlen : (c.files ++ [p]).length = c.files.length + 1 := List.length_append
  refine ⟨h.run.mutate (mutates_insert h.run.quiescent ha _), fun q hq => ?_,
    fun q r hq hr heq => ?_, fun q hq path hmem => ?_, fun n path hhas => ?_, fun x hx => ?_,
    fun b hb => ?_⟩
  · dsimp only
    rcases hprot hq with rfl | hq
    · rw [hself, hlen]
      exact Nat.lt_succ_self _
    · rw [hfile hq, hlen]
      exact Nat.lt_succ_of_lt (h.file q hq)
  · dsimp only at heq
    rcases hprot hq with rfl | hq' <;> rcases hprot hr with rfl | hr'
    · rfl
    · rw [hself, hfile hr'] at heq
      exact absurd heq (Nat.ne_of_gt (h.file r hr'))
    · rw [hself, hfile hq'] at heq
      exact absurd heq (Nat.ne_of_lt (h.file q hq'))
    · rw [hfile hq', hfile hr'] at heq
      exact h.unique q r hq' hr' heq
  · dsimp only at hmem
    rcases hprot hq with rfl | hq
    · rw [hself] at hmem
      exact absurd (h.old _ hmem) (Nat.lt_irrefl _)
    · rw [hfile hq] at hmem
      exact h.kept q hq path hmem
  · by_cases hn : n = c.files.length
    · exact Or.inl ⟨a, protAt_insert.mpr (Or.inl ⟨rfl, rfl⟩), hself.trans hn.symm⟩
    · obtain ⟨q, hq, hpath⟩ := hhas
      have hlt : n < c.files.length := by
        have := (List.getElem?_eq_some_iff.mp hq).1
        rw [hlen] at this
        omega
      rw [List.getElem?_append_left hlt] at hq
      refine (h.gone n path ⟨q, hq, hpath⟩).imp ?_ id
      rintro ⟨r, hr, hrn⟩
      exact ⟨r, protAt_insert.mpr (Or.inr hr), (hfile hr).trans hrn⟩
  · rw [hlen]
    exact Nat.lt_succ_of_lt (h.old x hx)
  · rcases closureAt_insert.mp hb with ⟨-, hf⟩ | hb
    · cases hf
    · exact has_of_append (h.code b hb)

/-- A new closure over a prototype of a file. -/
theorem FilesOk.closure (h : FilesOk c) {a : Addr} (ha : a ∉ c.heap.objects.map (·.addr))
    {body : GcBody} (hbody : isFunction body = true) {n : Nat} {path : List Nat}
    (hhas : c.Has n path) : FilesOk { c with
      heap := gcInsertObject c.heap a body
      code := Function.update c.code a (n, path) } := by
  have hprot : ∀ {q}, ProtAt (gcInsertObject c.heap a body) q ↔ ProtAt c.heap q := by
    intro q
    rw [protAt_insert]
    refine or_iff_right ?_
    rintro ⟨-, rfl⟩
    cases hbody
  refine ⟨h.run.mutate (mutates_insert h.run.quiescent ha _), fun q hq => h.file q (hprot.mp hq),
    fun q r hq hr => h.unique q r (hprot.mp hq) (hprot.mp hr),
    fun q hq => h.kept q (hprot.mp hq), fun m p hm => ?_, h.old, fun b hb => ?_⟩
  · exact (h.gone m p hm).imp (fun ⟨q, hq, heq⟩ => ⟨q, hprot.mpr hq, heq⟩) id
  · dsimp only
    rcases closureAt_insert.mp hb with ⟨rfl, -⟩ | hb
    · rw [Function.update_self]
      exact hhas
    · have hne : b ≠ a := fun heq => ha (heq ▸ hb.mem)
      rw [Function.update_of_ne hne]
      exact h.code b hb

theorem FilesOk.step (h : FilesOk c) (hstep : CodeStep c c') : FilesOk c' := by
  cases hstep with
  | load a p ha => exact h.load ha p
  | outer a _ _ ha hq =>
      refine h.closure ha rfl ?_
      obtain ⟨p, hp⟩ : ∃ p, c.files[c.file _]? = some p :=
        ⟨_, List.getElem?_eq_getElem (h.file _ hq)⟩
      exact ⟨p, hp, rfl⟩
  | inner a _ _ ha hf hp hpath => exact h.closure ha rfl ⟨_, hp, hpath⟩
  | @rewrite s' hr =>
      have hprot : ∀ {q}, ProtAt s' q ↔ ProtAt c.heap q := by
        intro q
        rw [protAt_iff, hr.codeAt, protAt_iff]
      have hclosure : ∀ {q}, ClosureAt s' q ↔ ClosureAt c.heap q := by
        intro q
        simp only [closureAt_iff, hr.codeAt]
      exact ⟨h.run.mutate hr.mutates, fun q hq => h.file q (hprot.mp hq),
        fun q r hq hr => h.unique q r (hprot.mp hq) (hprot.mp hr),
        fun q hq => h.kept q (hprot.mp hq),
        fun n path hhas => (h.gone n path hhas).imp
          (fun ⟨q, hq, heq⟩ => ⟨q, hprot.mpr hq, heq⟩) id,
        h.old, fun b hb => h.code b (hclosure.mp hb)⟩

theorem mem_fileAt {q : Addr} {x : Nat × List Nat} :
    x ∈ c.fileAt q ↔ x.1 = c.file q ∧ c.Has x.1 x.2 := by
  unfold CodeState.fileAt
  cases hp : c.files[c.file q]? with
  | none =>
      refine iff_of_false List.not_mem_nil ?_
      rintro ⟨heq, p, hp', -⟩
      rw [heq, hp] at hp'
      cases hp'
  | some p =>
      dsimp only
      rw [List.mem_map]
      constructor
      · rintro ⟨path, hpath, rfl⟩
        exact ⟨rfl, p, hp, (mem_freeProt p path).mp hpath⟩
      · rintro ⟨heq, p', hp', hpath⟩
        rw [heq, hp] at hp'
        cases hp'
        exact ⟨x.2, (mem_freeProt p x.2).mpr hpath, by rw [← heq]⟩

/-- `free_prot` has been called for all of the files whose object a cycle
has not kept. -/
theorem mem_released (h : FilesOk c) {s' : GcState} (hc : Cycle c.heap s')
    {x : Nat × List Nat} : x ∈ (c.sweep s').released
      ↔ x ∈ c.released
        ∨ c.Has x.1 x.2 ∧ ∃ q, ProtAt c.heap q ∧ c.file q = x.1 ∧ ¬ Kept c.heap q := by
  simp only [CodeState.sweep, List.mem_append, List.mem_flatMap, mem_freedProts h.run hc,
    mem_fileAt]
  refine or_congr_right ⟨?_, ?_⟩
  · rintro ⟨q, ⟨hq, hno⟩, heq, hhas⟩
    exact ⟨hhas, q, hq, heq.symm, hno⟩
  · rintro ⟨hhas, q, hq, heq, hno⟩
    exact ⟨q, ⟨hq, hno⟩, heq.symm, hhas⟩

theorem FilesOk.collect (h : FilesOk c) {s' : GcState} (hc : Cycle c.heap s') :
    FilesOk (c.sweep s') := by
  have hprot : ∀ {q}, ProtAt s' q ↔ ProtAt c.heap q ∧ Kept c.heap q := hc.protAt h.run
  refine ⟨h.run.collect hc, fun q hq => h.file q (hprot.mp hq).1,
    fun q r hq hr => h.unique q r (hprot.mp hq).1 (hprot.mp hr).1, fun q hq path hmem => ?_,
    fun n path hhas => ?_, fun x hx => ?_, fun b hb => h.code b ((hc.closureAt h.run).mp hb).1⟩
  · obtain ⟨hq, hkept⟩ := hprot.mp hq
    rcases (mem_released h hc).mp hmem with hmem | ⟨-, r, hr, heq, hno⟩
    · exact h.kept q hq path hmem
    · exact hno (h.unique q r hq hr heq.symm ▸ hkept)
  · rw [mem_released h hc]
    rcases h.gone n path hhas with ⟨q, hq, heq⟩ | hmem
    · by_cases hkept : Kept c.heap q
      · exact Or.inl ⟨q, hprot.mpr ⟨hq, hkept⟩, heq⟩
      · exact Or.inr (Or.inr ⟨hhas, q, hq, heq, hkept⟩)
    · exact Or.inr (Or.inl hmem)
  · rcases (mem_released h hc).mp hx with hx | ⟨hhas, -⟩
    · exact h.old x hx
    · exact Has.lt hhas

theorem CodeRun.filesOk {P : CodeState → Prop} (h : CodeRun P c) : FilesOk c := by
  induction h with
  | init p hp file code => exact filesOk_init hp file code
  | step _ hstep ih => exact ih.step hstep
  | collect _ _ hc ih => exact ih.collect hc

/-! ## When closures keep their code -/

/-- A new closure has the code of one that has not lost it. -/
theorem KeepsCode.step (h : FilesOk c) (hk : KeepsCode c) (hstep : CodeStep c c') :
    KeepsCode c' := by
  intro b hb
  have hnew : ∀ {a : Addr} {body : GcBody} {x : Nat × List Nat}, x ∉ c.released →
      ClosureAt (gcInsertObject c.heap a body) b →
      Function.update c.code a x b ∉ c.released := by
    intro a body x hx hb
    by_cases hba : b = a
    · rw [hba, Function.update_self]
      exact hx
    · rw [Function.update_of_ne hba]
      exact hk b ((closureAt_insert.mp hb).resolve_left fun h => hba h.1.symm)
  cases hstep with
  | load a p ha =>
      rcases closureAt_insert.mp hb with ⟨-, hf⟩ | hb
      · cases hf
      · exact hk b hb
  | outer a _ _ ha hq => exact hnew (h.kept _ hq []) hb
  | inner a _ _ ha hf hp hpath =>
      refine hnew (fun hmem => ?_) hb
      rcases h.gone _ _ (h.code _ hf) with ⟨q, hq, heq⟩ | hgone
      · exact h.kept q hq _ (heq ▸ hmem)
      · exact hk _ hf hgone
  | @rewrite s' hr =>
      have hclosure : ClosureAt c.heap b := by
        simp only [closureAt_iff, ← hr.codeAt] at hb ⊢
        exact hb
      exact hk b hclosure

/-- One collection. -/
theorem keepsCode_sweep_iff (h : FilesOk c) (hk : KeepsCode c) {s' : GcState}
    (hc : Cycle c.heap s') : KeepsCode (c.sweep s') ↔ FilesKept c := by
  constructor
  · intro hk' a ha hkept
    have hno := hk' a ((hc.closureAt h.run).mpr ⟨ha, hkept⟩)
    rw [mem_released h hc] at hno
    rcases h.gone _ _ (h.code a ha) with ⟨q, hq, heq⟩ | hgone
    · refine ⟨q, hq, heq, by_contra fun hq' => hno (Or.inr ?_)⟩
      exact ⟨h.code a ha, q, hq, heq, hq'⟩
    · exact absurd hgone (hk a ha)
  · intro hfiles a ha hmem
    obtain ⟨ha, hkept⟩ := (hc.closureAt h.run).mp ha
    rcases (mem_released h hc).mp hmem with hmem | ⟨-, r, hr, hreq, hno⟩
    · exact hk a ha hmem
    · obtain ⟨q, hq, heq, hqkept⟩ := hfiles a ha hkept
      exact hno (h.unique q r hq hr (heq.trans hreq.symm) ▸ hqkept)

theorem CodeRun.keepsCode (h : CodeRun FilesKept c) : KeepsCode c := by
  induction h with
  | init p hp file code => exact fun a ha => absurd ha (not_code_init p a).2
  | step hrun hstep ih => exact ih.step hrun.filesOk hstep
  | collect hrun hfiles hc ih => exact (keepsCode_sweep_iff hrun.filesOk ih hc).mpr hfiles

/-- **No closure outlives its code** in a run in which every collection keeps
the prototype object of the file of every closure it keeps; and the first
collection that does not leaves a closure without its code. -/
theorem code_outlives_iff (h : CodeRun FilesKept c) :
    KeepsCode c ∧ ∀ s', Cycle c.heap s' → (KeepsCode (c.sweep s') ↔ FilesKept c) :=
  ⟨h.keepsCode, fun _ hc => keepsCode_sweep_iff h.filesOk h.keepsCode hc⟩

/-! ## A closure that does -/

theorem rewrites_stack {s : GcState} (h : (s.objects.map (·.addr)).Nodup) (stack : List Value) :
    Rewrites s { s with stack := stack } :=
  ⟨rfl, h, [], s.objects, rfl, fun _ ho => absurd ho List.not_mem_nil, rfl⟩

/-- A file whose function makes a closure over its one nested lambda. -/
def nestingFile : Proto :=
  .mk [⟨21#8, 0#8, 0#16⟩, ⟨18#8, 0#8, 0#16⟩] [] [] [.mk [] [] [] [] [] []] [] []

/-- The heap of the interpreter with that file loaded, its function at 12,
and the closure it has made at 13. -/
def nestingHeap (stack : List Value) : GcState :=
  { gcInsertObject (gcInsertObject (gcInsertObject (suInit (· + 1)) 11 .prototype) 12
      (.function (some 11) [] [])) 13 (.function none [] []) with stack := stack }

def nestingState (stack : List Value) : CodeState where
  heap := nestingHeap stack
  files := [nestingFile]
  file := Function.update (fun _ => 0) 11 0
  code := Function.update (Function.update (fun _ => (0, [])) 12 (0, [])) 13 (0, [0])
  released := []

theorem nesting_run (P : CodeState → Prop) (stack : List Value) :
    CodeRun P (nestingState stack) := by
  have h0 : CodeRun P ⟨suInit (· + 1), [], fun _ => 0, fun _ => (0, []), []⟩ :=
    .init _ (by decide) _ _
  have h1 := h0.step (.load 11 nestingFile (by decide))
  have h2 := h1.step (.outer (q := 11) 12 [] [] (by decide) ⟨_, List.mem_cons_self .., rfl, rfl⟩)
  have h3 := h2.step (.inner (f := 12) (i := 0) (p := nestingFile) 13 [] [] (by decide)
    ⟨_, List.mem_cons_self .., rfl, rfl⟩ rfl rfl)
  exact h3.step (.rewrite (rewrites_stack (by decide) stack))

theorem nestingState_code (stack : List Value) (a : Addr) :
    ((nestingState stack).code a).1 = 0 := by
  simp only [nestingState, Function.update_apply]
  split
  · rfl
  · split <;> rfl

/-- The heap with only the inner closure on the stack, after one collection. -/
def nestingOld : GcState :=
  { nestingHeap [ptrValue .function 13] with
    objects := (nestingHeap []).objects.map fun o => { o with flag := .white } }

theorem nesting_gc : Saurus.suGc (nestingHeap [ptrValue .function 13]) = .ok nestingOld := by
  decide +kernel

/-- In the first collection all is new, and nothing is released. -/
theorem code_outlives_iff_nesting :
    KeepsCode ((nestingState [ptrValue .function 13]).sweep nestingOld) := by
  refine ((code_outlives_iff (nesting_run FilesKept _)).2 _ (.suGc nesting_gc)).mpr ?_
  intro a _ _
  have hprot : ProtAt (nestingHeap [ptrValue .function 13]) 11 :=
    ⟨⟨11, .trans, .prototype⟩, by decide, rfl, rfl⟩
  refine ⟨11, hprot, ?_, Or.inl ⟨⟨11, .trans, .prototype⟩, by decide, rfl, rfl⟩⟩
  exact (nestingState_code _ a).symm ▸ rfl

/-- After the second one: the file's prototype and function are gone, with
the first versions of `strings`. -/
def nestingSwept : GcState :=
  { nestingOld with
    objects := nestingOld.objects.filter (·.addr ∉ [1, 2, 11, 12])
    numObjects := 9 }

/-- Two collections with only the inner closure on the stack: the second one
frees the prototype that the closure's code lies in. -/
theorem closure_outlives_code :
    ∃ c s', CodeRun (fun _ => True) c ∧ Cycle c.heap s' ∧ ClosureAt s' 13
      ∧ (c.sweep s').code 13 ∈ (c.sweep s').released ∧ ¬ KeepsCode (c.sweep s') := by
  have hrun : CodeRun (fun _ => True) ((nestingState [ptrValue .function 13]).sweep nestingOld) :=
    (nesting_run _ _).collect trivial (.suGc nesting_gc)
  have hgc : Saurus.suGc nestingOld = .ok nestingSwept := by decide +kernel
  have hclosure : ClosureAt nestingSwept 13 :=
    ⟨⟨13, .white, .function none [] []⟩, by decide +kernel, rfl, rfl⟩
  have hgone : (0, [0]) ∈
      (((nestingState [ptrValue .function 13]).sweep nestingOld).sweep nestingSwept).released := by
    decide +kernel
  exact ⟨_, nestingSwept, hrun, .suGc hgc, hclosure, hgone, fun h => h 13 hclosure hgone⟩

end Saurus
