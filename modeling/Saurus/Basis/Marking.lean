import Mathlib.Data.List.Perm.Subperm
import Mathlib.Logic.Function.Basic
import Mathlib.Logic.Relation
import Mathlib.Tactic.Common

/-!
# Marking a graph with a stack

The mark phase of a tracing collector over an arbitrary graph: nodes that
take part start `unseen`, a node is put on the stack when it is first met
and becomes `done` when it is taken off and its successors have been met.
Nodes may also be set `apart`: the marker meets them and passes on without
following what they point to.

`Inv` is what every step keeps. Once the stack is empty it says that the
nodes marked are exactly those reached from the roots along nodes that take
part (`Inv.done_iff`).

`Move` is the marker at work with a stack that never overflows, and `Within`
bounds the entries it ever has there.
-/

namespace Basis

namespace Marking

variable {α : Type*}

/-- Progress of one node. -/
inductive Mark where
  | apart | unseen | pending | done
deriving Repr, DecidableEq

/-- State of the marker. -/
structure Marker (α : Type*) where
  mark : α → Mark
  stack : List α

/-! ## Paths -/

/-- Reached from `roots` along nodes of `S`, both ends included. -/
inductive Through (next : α → List α) (S : α → Prop) (roots : List α) : α → Prop
  | root {a : α} (hroot : a ∈ roots) (hin : S a) : Through next S roots a
  | step {a b : α} (hpath : Through next S roots a) (hedge : b ∈ next a) (hin : S b) :
      Through next S roots b

variable {next : α → List α} {S T : α → Prop} {roots : List α}

theorem Through.mem {a : α} (h : Through next S roots a) : S a := by
  cases h with
  | root _ hin => exact hin
  | step _ _ hin => exact hin

theorem Through.mono (hST : ∀ a, S a → T a) {a : α} (h : Through next S roots a) :
    Through next T roots a := by
  induction h with
  | root hroot hin => exact .root hroot (hST _ hin)
  | step _ hedge hin ih => exact .step ih hedge (hST _ hin)

/-! ## The invariant -/

/-- The marker between two steps, `m` being the marks it started from and
`owed` the nodes still to be met in the current step. -/
structure Inv (next : α → List α) (m : α → Mark) (roots owed : List α) (s : Marker α) :
    Prop where
  apart : ∀ a, m a ≠ .unseen → s.mark a = m a
  joined : ∀ a, m a = .unseen → s.mark a ≠ .apart
  sound : ∀ a, m a = .unseen → s.mark a ≠ .unseen →
    Through next (fun b => m b = .unseen) roots a
  stacked : ∀ a, s.mark a = .pending → a ∈ s.stack
  pending : ∀ a ∈ s.stack, m a = .unseen ∧ s.mark a ≠ .unseen
  closed : ∀ a, m a = .unseen → s.mark a = .done → ∀ b ∈ next a, s.mark b = .unseen → b ∈ owed
  rooted : ∀ r ∈ roots, s.mark r = .unseen → r ∈ owed

variable {m : α → Mark} {owed : List α} {s : Marker α}

/-- Before anything has been met, the roots are owed. -/
theorem inv_init (hm : ∀ a, m a = .apart ∨ m a = .unseen) :
    Inv next m roots roots ⟨m, []⟩ where
  apart := fun _ _ => rfl
  joined := fun a ha h => Mark.noConfusion (ha.symm.trans h)
  sound := fun a ha hne => (hne ha).elim
  stacked := fun a ha => by
    rcases hm a with h | h <;> exact Mark.noConfusion (h.symm.trans ha)
  pending := fun a ha => absurd ha List.not_mem_nil
  closed := fun a ha hd => Mark.noConfusion (ha.symm.trans hd)
  rooted := fun _ hr _ => hr

/-- A node met twice is dropped from the stack. -/
theorem Inv.drop {a : α} {rest : List α} (h : Inv next m roots [] s) (hs : s.stack = a :: rest)
    (hd : s.mark a = .done) : Inv next m roots [] ⟨s.mark, rest⟩ :=
  { h with
    stacked := fun b hb => List.mem_of_ne_of_mem
      (by rintro rfl; rw [hd] at hb; cases hb) (hs ▸ h.stacked b hb)
    pending := fun b hb => h.pending b (hs ▸ List.mem_cons_of_mem _ hb) }

/-- **The outcome.** With an empty stack the nodes marked are those reached
along nodes that take part. -/
theorem Inv.done_iff (h : Inv next m roots [] s) (hs : s.stack = []) {a : α}
    (ha : m a = .unseen) :
    s.mark a ≠ .unseen ↔ Through next (fun b => m b = .unseen) roots a := by
  refine ⟨h.sound a ha, fun hpath => ?_⟩
  have hdone : ∀ b, m b = .unseen → s.mark b ≠ .unseen → s.mark b = .done := by
    intro b hb hne
    cases hmark : s.mark b with
    | apart => exact (h.joined b hb hmark).elim
    | unseen => exact (hne hmark).elim
    | pending => exact absurd (hs ▸ h.stacked b hmark) List.not_mem_nil
    | done => rfl
  clear ha
  induction hpath with
  | root hroot _ => exact fun hu => absurd (h.rooted _ hroot hu) List.not_mem_nil
  | step hpath hedge _ ih =>
      exact fun hu => absurd
        (h.closed _ hpath.mem (hdone _ hpath.mem ih) _ hedge hu) List.not_mem_nil

/-! ## The marker -/

variable [DecidableEq α]

/-- Meet a node. -/
def visit (s : Marker α) (a : α) : Marker α :=
  if s.mark a = .unseen then ⟨Function.update s.mark a .pending, a :: s.stack⟩ else s

def visitAll (s : Marker α) (as : List α) : Marker α := as.foldl visit s

/-- Take `a` off the stack and meet its successors. -/
def expand (next : α → List α) (s : Marker α) (a : α) (rest : List α) : Marker α :=
  visitAll ⟨Function.update s.mark a .done, rest⟩ (next a)

theorem visit_mark (s : Marker α) (a b : α) :
    (visit s a).mark b = if b = a ∧ s.mark a = .unseen then .pending else s.mark b := by
  rw [visit]
  by_cases hu : s.mark a = .unseen
  · rw [if_pos hu]
    by_cases hb : b = a
    · rw [hb, if_pos ⟨rfl, hu⟩]
      exact Function.update_self ..
    · rw [if_neg fun h => hb h.1]
      exact Function.update_of_ne hb ..
  · rw [if_neg hu, if_neg fun h => hu h.2]

/-- Meeting a node that is reachable pays one debt. -/
theorem Inv.visit (h : Inv next m roots (a :: owed) s)
    (ha : m a = .unseen → Through next (fun b => m b = .unseen) roots a) :
    Inv next m roots owed (visit s a) := by
  by_cases hu : s.mark a = .unseen
  · have hm : m a = .unseen := by
      by_contra hne
      exact hne ((h.apart a hne).symm.trans hu)
    have hmark := visit_mark s a
    have hself : (Marking.visit s a).mark a = .pending := by rw [hmark, if_pos ⟨rfl, hu⟩]
    have hother : ∀ b, b ≠ a → (Marking.visit s a).mark b = s.mark b := fun b hb => by
      rw [hmark, if_neg fun h => hb h.1]
    have hstack : (Marking.visit s a).stack = a :: s.stack := by rw [Marking.visit, if_pos hu]
    refine ⟨fun b hb => ?_, fun b hb => ?_, fun b hb hseen => ?_, fun b hb => ?_,
      fun b hb => ?_, fun b hb hdone c hc hcu => ?_, fun r hr hru => ?_⟩
    · rw [hother b fun heq => hb (heq ▸ hm)]
      exact h.apart b hb
    · by_cases heq : b = a
      · rw [heq, hself]; decide
      · rw [hother b heq]; exact h.joined b hb
    · by_cases heq : b = a
      · rw [heq]; exact ha hm
      · rw [hother b heq] at hseen
        exact h.sound b hb hseen
    · rw [hstack]
      by_cases heq : b = a
      · exact heq ▸ List.mem_cons_self
      · rw [hother b heq] at hb
        exact List.mem_cons_of_mem _ (h.stacked b hb)
    · rw [hstack] at hb
      by_cases heq : b = a
      · rw [heq]
        exact ⟨hm, by rw [hself]; decide⟩
      · rw [hother b heq]
        exact h.pending b (List.mem_of_ne_of_mem heq hb)
    · have hba : b ≠ a := by rintro rfl; rw [hself] at hdone; cases hdone
      have hca : c ≠ a := by rintro rfl; rw [hself] at hcu; cases hcu
      rw [hother b hba] at hdone
      rw [hother c hca] at hcu
      exact List.mem_of_ne_of_mem hca (h.closed b hb hdone c hc hcu)
    · have hra : r ≠ a := by rintro rfl; rw [hself] at hru; cases hru
      rw [hother r hra] at hru
      exact List.mem_of_ne_of_mem hra (h.rooted r hr hru)
  · rw [Marking.visit, if_neg hu]
    have hpaid : ∀ b, s.mark b = .unseen → b ∈ a :: owed → b ∈ owed := fun b hb hmem =>
      List.mem_of_ne_of_mem (by rintro rfl; exact hu hb) hmem
    exact { h with
      closed := fun b hb hdone c hc hcu => hpaid c hcu (h.closed b hb hdone c hc hcu)
      rooted := fun r hr hru => hpaid r hru (h.rooted r hr hru) }

theorem Inv.visitAll : ∀ {as : List α} {s : Marker α}, Inv next m roots (as ++ owed) s →
    (∀ a ∈ as, m a = .unseen → Through next (fun b => m b = .unseen) roots a) →
    Inv next m roots owed (visitAll s as)
  | [], _, h, _ => h
  | a :: as, s, h, ha => by
      have hrest := Inv.visitAll (h.visit (ha a List.mem_cons_self))
        fun b hb => ha b (List.mem_cons_of_mem _ hb)
      exact hrest

/-- Meeting all roots starts the marking. -/
theorem inv_begin (hm : ∀ a, m a = .apart ∨ m a = .unseen) :
    Inv next m roots [] (visitAll ⟨m, []⟩ roots) :=
  Inv.visitAll (by rw [List.append_nil]; exact inv_init hm) fun _ ha hu => .root ha hu

/-- **One step** of the marker. -/
theorem Inv.expand {a : α} {rest : List α} (h : Inv next m roots [] s)
    (hs : s.stack = a :: rest) : Inv next m roots [] (expand next s a rest) := by
  obtain ⟨hma, hseen⟩ := h.pending a (hs ▸ List.mem_cons_self)
  have hpath := h.sound a hma hseen
  refine Inv.visitAll ?_ fun b hb hu => hpath.step hb hu
  have hself : Function.update s.mark a Mark.done a = .done := Function.update_self ..
  have hother : ∀ b, b ≠ a → Function.update s.mark a Mark.done b = s.mark b :=
    fun b hb => Function.update_of_ne hb ..
  rw [List.append_nil]
  refine ⟨fun b hb => ?_, fun b hb => ?_, fun b hb hbu => ?_, fun b hb => ?_, fun b hb => ?_,
    fun b hb hdone c hc hcu => ?_, fun r hr hru => ?_⟩
  · exact (hother b fun heq => hb (heq ▸ hma)).trans (h.apart b hb)
  · dsimp only
    by_cases heq : b = a
    · rw [heq, hself]; decide
    · rw [hother b heq]; exact h.joined b hb
  · by_cases heq : b = a
    · rw [heq]; exact hpath
    · exact h.sound b hb (hother b heq ▸ hbu)
  · have hba : b ≠ a := by rintro rfl; exact Mark.noConfusion (hself.symm.trans hb)
    exact List.mem_of_ne_of_mem hba (hs ▸ h.stacked b (hother b hba ▸ hb))
  · obtain ⟨hmb, hbu⟩ := h.pending b (hs ▸ List.mem_cons_of_mem _ hb)
    refine ⟨hmb, ?_⟩
    dsimp only
    by_cases heq : b = a
    · rw [heq, hself]; decide
    · rwa [hother b heq]
  · have hca : c ≠ a := by rintro rfl; exact Mark.noConfusion (hself.symm.trans hcu)
    by_cases heq : b = a
    · exact heq ▸ hc
    · exact (List.not_mem_nil
        (h.closed b hb (hother b heq ▸ hdone) c hc (hother c hca ▸ hcu))).elim
  · have hra : r ≠ a := by rintro rfl; exact Mark.noConfusion (hself.symm.trans hru)
    exact (List.not_mem_nil (h.rooted r hr (hother r hra ▸ hru))).elim

theorem mem_visit_stack {b a : α} (h : b ∈ (Marking.visit s a).stack) : b ∈ s.stack ∨ b = a := by
  rw [Marking.visit] at h
  by_cases hu : s.mark a = .unseen
  · rw [if_pos hu] at h
    exact (List.mem_cons.mp h).symm
  · rw [if_neg hu] at h
    exact Or.inl h

/-- Only what is met gets on the stack. -/
theorem mem_visitAll_stack : ∀ {as : List α} {s : Marker α} {b : α},
    b ∈ (Marking.visitAll s as).stack → b ∈ s.stack ∨ b ∈ as
  | [], _, _, h => Or.inl h
  | a :: as, s, b, h => by
      have hrest : b ∈ (Marking.visit s a).stack ∨ b ∈ as := mem_visitAll_stack h
      rcases hrest with hmem | hmem
      · rcases mem_visit_stack hmem with hmem | rfl
        · exact Or.inl hmem
        · exact Or.inr List.mem_cons_self
      · exact Or.inr (List.mem_cons_of_mem _ hmem)

/-! ## The height of the stack -/

/-- One move: meet the next node owed, drop a node that was met twice, or take
a node off the stack and owe its successors. -/
inductive Move (next : α → List α) : Marker α × List α → Marker α × List α → Prop
  | meet (s : Marker α) (a : α) (owed : List α) : Move next (s, a :: owed) (visit s a, owed)
  | drop {s : Marker α} {a : α} {rest : List α} (hs : s.stack = a :: rest)
      (hd : s.mark a = .done) : Move next (s, []) (⟨s.mark, rest⟩, [])
  | take {s : Marker α} {a : α} {rest : List α} (hs : s.stack = a :: rest)
      (hd : s.mark a ≠ .done) :
      Move next (s, []) (⟨Function.update s.mark a .done, rest⟩, next a)

/-- The stack never has more than `n` entries from here on. -/
def Within (next : α → List α) (n : Nat) (s : Marker α) (owed : List α) : Prop :=
  ∀ t, Relation.ReflTransGen (Move next) (s, owed) t → t.1.stack.length ≤ n

theorem Within.stack {n : Nat} (h : Within next n s owed) : s.stack.length ≤ n :=
  h (s, owed) .refl

theorem Within.move {n : Nat} {s' : Marker α} {owed' : List α} (h : Within next n s owed)
    (hmove : Move next (s, owed) (s', owed')) : Within next n s' owed' :=
  fun t ht => h t (.head hmove ht)

theorem Within.meet {n : Nat} {a : α} (h : Within next n s (a :: owed)) :
    Within next n (Marking.visit s a) owed := h.move (.meet s a owed)

theorem Within.meetAll {n : Nat} : ∀ {as : List α} {s : Marker α},
    Within next n s (as ++ owed) → Within next n (Marking.visitAll s as) owed
  | [], _, h => h
  | _ :: _, _, h => by
      rw [List.cons_append] at h
      have hrest := Within.meetAll h.meet
      exact hrest

theorem length_visit_le (s : Marker α) (a : α) :
    s.stack.length ≤ (Marking.visit s a).stack.length := by
  rw [Marking.visit]
  split_ifs
  · exact Nat.le_succ _
  · exact Nat.le_refl _

/-- The marker has one move at a time, so what bounds the stack after it bounds
it before, where it is not higher. -/
theorem Within.of_meet {n : Nat} {a : α} (h : Within next n (Marking.visit s a) owed) :
    Within next n s (a :: owed) := by
  intro t ht
  rcases ht.cases_head with rfl | ⟨u, hmove, hrest⟩
  · exact Nat.le_trans (length_visit_le s a) h.stack
  · cases hmove with
    | meet => exact h t hrest

theorem Within.of_meetAll {n : Nat} : ∀ {as : List α} {s : Marker α},
    Within next n (Marking.visitAll s as) owed → Within next n s (as ++ owed)
  | [], _, h => h
  | _ :: _, _, h => Within.of_meet (Within.of_meetAll h)

theorem within_nil {n : Nat} (hs : s.stack = []) : Within next n s [] := by
  intro t ht
  rcases ht.cases_head with rfl | ⟨u, hmove, -⟩
  · rw [hs]
    exact Nat.zero_le n
  · cases hmove with
    | drop hs' => rw [hs] at hs'; cases hs'
    | take hs' => rw [hs] at hs'; cases hs'

theorem Within.of_drop {n : Nat} {a : α} {rest : List α} (hs : s.stack = a :: rest)
    (hd : s.mark a = .done) (hlen : s.stack.length ≤ n) (h : Within next n ⟨s.mark, rest⟩ []) :
    Within next n s [] := by
  intro t ht
  rcases ht.cases_head with rfl | ⟨u, hmove, hrest⟩
  · exact hlen
  · cases hmove with
    | drop hs' =>
        obtain ⟨-, rfl⟩ := List.cons.inj (hs.symm.trans hs')
        exact h t hrest
    | take hs' hd' =>
        obtain ⟨rfl, -⟩ := List.cons.inj (hs.symm.trans hs')
        exact absurd hd hd'

theorem Within.of_take {n : Nat} {a : α} {rest : List α} (hs : s.stack = a :: rest)
    (hd : s.mark a ≠ .done) (hlen : s.stack.length ≤ n)
    (h : Within next n ⟨Function.update s.mark a .done, rest⟩ (next a)) : Within next n s [] := by
  intro t ht
  rcases ht.cases_head with rfl | ⟨u, hmove, hrest⟩
  · exact hlen
  · cases hmove with
    | drop hs' hd' =>
        obtain ⟨rfl, -⟩ := List.cons.inj (hs.symm.trans hs')
        exact absurd hd' hd
    | take hs' =>
        obtain ⟨rfl, rfl⟩ := List.cons.inj (hs.symm.trans hs')
        exact h t hrest

/-- Different nodes that nobody has met yet all go on the stack. -/
theorem length_visitAll : ∀ {as : List α} {s : Marker α}, as.Nodup →
    (∀ a ∈ as, s.mark a = .unseen) →
    (Marking.visitAll s as).stack.length = s.stack.length + as.length
  | [], _, _, _ => rfl
  | a :: as, s, hnodup, hunseen => by
      obtain ⟨hnot, hnodup⟩ := List.nodup_cons.mp hnodup
      obtain ⟨hu, hunseen⟩ := List.forall_mem_cons.mp hunseen
      have hstack : (Marking.visit s a).stack = a :: s.stack := by rw [Marking.visit, if_pos hu]
      have hrest : ∀ b ∈ as, (Marking.visit s a).mark b = .unseen := fun b hb => by
        have hne : b ≠ a := fun heq => hnot (heq ▸ hb)
        rw [visit_mark, if_neg fun h => hne h.1]
        exact hunseen b hb
      have hlen := length_visitAll hnodup hrest
      rw [hstack, List.length_cons] at hlen
      rw [List.length_cons, Nat.add_comm as.length 1, ← Nat.add_assoc]
      exact hlen

/-- The entries of the stack are distinct and await their turn. -/
structure Waiting (m : α → Mark) (s : Marker α) : Prop where
  nodup : s.stack.Nodup
  pending : ∀ a ∈ s.stack, s.mark a = .pending
  fresh : ∀ a, m a ≠ .unseen → s.mark a = m a

theorem Waiting.move {s s' : Marker α} {owed owed' : List α} (h : Waiting m s)
    (hm : ∀ a, m a = .apart ∨ m a = .unseen) (hmove : Move next (s, owed) (s', owed')) :
    Waiting m s' := by
  cases hmove with
  | meet s a owed =>
      by_cases hu : s.mark a = .unseen
      · have hnot : a ∉ s.stack := fun ha => by
          rw [h.pending a ha] at hu
          cases hu
        have hother : ∀ b, b ≠ a → (Marking.visit s a).mark b = s.mark b := fun b hb => by
          rw [visit_mark, if_neg fun hh => hb hh.1]
        have hstack : (Marking.visit s a).stack = a :: s.stack := by rw [Marking.visit, if_pos hu]
        refine ⟨hstack ▸ List.nodup_cons.mpr ⟨hnot, h.nodup⟩, fun b hb => ?_, fun b hb => ?_⟩
        · rw [hstack] at hb
          by_cases hba : b = a
          · rw [visit_mark, if_pos ⟨hba, hu⟩]
          · rw [hother b hba]
            exact h.pending b (List.mem_of_ne_of_mem hba hb)
        · have hba : b ≠ a := by
            rintro rfl
            exact hb ((h.fresh b hb).symm.trans hu)
          rw [hother b hba]
          exact h.fresh b hb
      · rw [Marking.visit, if_neg hu]
        exact h
  | drop hs hd =>
      have hn := hs ▸ h.nodup
      exact ⟨(List.nodup_cons.mp hn).2, fun b hb => h.pending b (hs ▸ List.mem_cons_of_mem _ hb),
        h.fresh⟩
  | @take s a rest hs hd =>
      have hn := hs ▸ h.nodup
      have hself := h.pending a (hs ▸ List.mem_cons_self)
      refine ⟨(List.nodup_cons.mp hn).2, fun b hb => ?_, fun b hb => ?_⟩
      · have hba : b ≠ a := ne_of_mem_of_not_mem hb (List.nodup_cons.mp hn).1
        exact (Function.update_of_ne hba ..).trans
          (h.pending b (hs ▸ List.mem_cons_of_mem _ hb))
      · have hba : b ≠ a := by
          rintro rfl
          have hp : m b = .pending := (h.fresh b hb).symm.trans hself
          rcases hm b with h' | h' <;> cases h'.symm.trans hp
        exact (Function.update_of_ne hba ..).trans (h.fresh b hb)

/-- A stack never has more entries than there are nodes that take part. -/
theorem within_of_nodes {nodes : List α} (hm : ∀ a, m a = .apart ∨ m a = .unseen)
    (hnodes : ∀ a, m a = .unseen → a ∈ nodes) (owed : List α) :
    Within next nodes.length ⟨m, []⟩ owed := by
  intro t ht
  have hwait : Waiting m t.1 := by
    induction ht with
    | refl => exact ⟨List.nodup_nil, fun _ ha => absurd ha List.not_mem_nil, fun _ _ => rfl⟩
    | tail _ hmove ih => exact ih.move hm hmove
  refine (List.subperm_of_subset hwait.nodup fun a ha => hnodes a ?_).length_le
  by_contra hne
  have hp : m a = .pending := (hwait.fresh a hne).symm.trans (hwait.pending a ha)
  rcases hm a with h' | h' <;> cases h'.symm.trans hp

end Marking

end Basis
