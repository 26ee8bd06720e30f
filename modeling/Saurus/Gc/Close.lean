import Mathlib.Data.List.Perm.Basic
import Saurus.Gc.Safety
import Saurus.Gc.Sweep

/-!
# What `su_close` releases

`su_close` clears the roots and runs one cycle. The cycle finds nothing to
mark, and `end` frees the objects that are white; those registered since the
previous cycle are transient, which `end` only makes white, and the state is
freed with them still on the list.

`History` is a run of the interpreter together with the addresses that were
handed to `gc_insert_object` and to `free_object`. An address may be handed out
again once it has been freed, so what is registered is compared with what is
freed as multisets.
-/

namespace Saurus

open Basis Basis.Marking GcState

/-! ## Histories -/

/-- A step between collections that registers the objects `new`. -/
structure Registers (s s' : GcState) (new : List GcObject) : Prop where
  gray : s'.gray = s.gray
  nodup : (s'.objects.map (·.addr)).Nodup
  flags : ∀ o ∈ new, o.flag = .trans
  objects : ∃ kept, s'.objects = new ++ kept
    ∧ kept.map (fun o => (o.addr, o.flag)) = s.objects.map fun o => (o.addr, o.flag)
  count : s'.numObjects = s.numObjects + new.length

theorem Registers.mutates {s s' : GcState} {new : List GcObject} (h : Registers s s' new) :
    Mutates s s' := by
  obtain ⟨kept, hobjects, hkept⟩ := h.objects
  exact ⟨h.gray, h.nodup, new, kept, hobjects, h.flags, hkept⟩

/-- A run from `su_init`, the addresses registered in it and those freed. -/
inductive History : GcState → List Addr → List Addr → Prop
  | init (p : Nat → Addr) (hp : ((List.range 10).map p).Nodup) :
      History (suInit p) ((List.range 10).map p).reverse []
  | mutate {s s' : GcState} {new : List GcObject} {registered freed : List Addr}
      (hs : History s registered freed) (h : Registers s s' new) :
      History s' (new.map (·.addr) ++ registered) freed
  | collect {s s' s1 s2 : GcState} {registered freed : List Addr}
      (hs : History s registered freed) (hc : Cycle s s') (hbegin : gcBegin s = .ok s1)
      (hscan : scan s1 = .ok s2) : History s' registered (freed ++ whiteAddrs s2.objects)

theorem History.gcRun {s : GcState} {registered freed : List Addr}
    (h : History s registered freed) : GcRun s := by
  induction h with
  | init p hp => exact .init p hp
  | mutate _ h ih => exact ih.mutate h.mutates
  | collect _ hc _ _ ih => exact ih.collect hc

/-- `su_close`, up to the release of the state itself. As in `sweep`, every
object is given back on its own; which blocks they are in is left out. -/
def suClose (s : GcState) : Outcome GcState :=
  suGc { s with
    stack := []
    globals := { s.globals with type := .nil }
    strings := { s.strings with type := .nil } }

/-- Everything registered has been freed once when `su_close` returns, the list
is empty and the count zero. -/
def ReleasesAll (s : GcState) (registered freed : List Addr) : Prop :=
  ∃ s', suClose s = .ok s' ∧ s'.objects = [] ∧ s'.numObjects = 0
    ∧ registered.Perm (freed ++ whiteAddrs s.objects)

/-! ## The books -/

/-- What was registered has been freed or is on the list, and `num_objects` is
its length. -/
structure Balanced (s : GcState) (registered freed : List Addr) : Prop where
  count : s.numObjects = s.objects.length
  perm : registered.Perm (freed ++ s.objects.map (·.addr))

theorem white_or_marked (os : List GcObject) :
    (os.map (·.addr)).Perm (whiteAddrs os ++ markedAddrs os) := by
  have h := (List.filter_append_perm (fun o : GcObject => o.flag = .white) os).symm.map (·.addr)
  rw [List.map_append] at h
  simpa only [whiteAddrs, markedAddrs, decide_not] using h

theorem length_eq_white (os : List GcObject) :
    os.length = os.countP (·.flag = .white) + (markedAddrs os).length := by
  have h := (white_or_marked os).length_eq
  rw [List.length_append, List.length_map, whiteAddrs, List.length_map,
    ← List.countP_eq_length_filter] at h
  exact h

theorem Balanced.gcEnd {s s2 : GcState} {registered freed : List Addr}
    (h : Balanced s registered freed) (hf : Frame s s2) :
    Balanced (gcEnd s2) registered (freed ++ whiteAddrs s2.objects) where
  count := by
    have hlen := congrArg List.length (gcEnd_addrs s2)
    have hsplit := length_eq_white s2.objects
    have hsame := congrArg List.length hf.addrs
    rw [List.length_map] at hlen
    rw [List.length_map, List.length_map] at hsame
    have hcount : s2.numObjects = s.objects.length := hf.numObjects.trans h.count
    change s2.numObjects - s2.objects.countP (·.flag = .white) = _
    omega
  perm := by
    rw [gcEnd_addrs, List.append_assoc]
    refine h.perm.trans (List.Perm.append_left freed ?_)
    rw [← hf.addrs]
    exact white_or_marked s2.objects

theorem History.balanced {s : GcState} {registered freed : List Addr}
    (h : History s registered freed) : Balanced s registered freed := by
  induction h with
  | init p hp => exact ⟨rfl, .refl _⟩
  | @mutate s s' new registered freed hs h ih =>
      obtain ⟨kept, hobjects, hkept⟩ := h.objects
      have haddr := congrArg (List.map Prod.fst) hkept
      rw [List.map_map, List.map_map] at haddr
      change kept.map (·.addr) = s.objects.map (·.addr) at haddr
      have hlen := congrArg List.length haddr
      rw [List.length_map, List.length_map] at hlen
      refine ⟨?_, ?_⟩
      · rw [h.count, hobjects, List.length_append, ih.count]
        omega
      · rw [hobjects, List.map_append, haddr]
        refine (List.Perm.append_left _ ih.perm).trans ?_
        rw [← List.append_assoc, ← List.append_assoc]
        exact List.Perm.append_right _ List.perm_append_comm
  | collect hs hc hbegin hscan ih =>
      obtain ⟨s1, s2, h1, h2, rfl⟩ := hc.phases hs.gcRun.quiescent
      obtain rfl := Outcome.ok.inj (hbegin.symm.trans h1)
      obtain rfl := Outcome.ok.inj (hscan.symm.trans h2)
      exact ih.gcEnd (marked_iff hs.gcRun.quiescent h1 h2).1

/-! ## The last cycle -/

/-- Without roots nothing is marked. -/
theorem suGc_unrooted {s : GcState} (hgray : s.gray = []) (hroots : s.roots = []) :
    suGc s = .ok (gcEnd s) := by
  have hbegin : gcBegin s = .ok s := by
    rw [gcBegin, hroots]
    exact congrArg Outcome.ok (by rw [← hgray])
  have hscan : scan s = .ok s := by
    rw [scan_eq, hgray]
    rfl
  rw [suGc, if_pos hgray, Outcome.pure_eq, Outcome.ok_bind]
  dsimp only
  rw [hbegin, Outcome.ok_bind, hscan]
  rfl

theorem suClose_eq {s : GcState} (hgray : s.gray = []) :
    suClose s = .ok (gcEnd { s with
      stack := []
      globals := { s.globals with type := .nil }
      strings := { s.strings with type := .nil } }) :=
  suGc_unrooted hgray rfl

/-- **Closing.** In every reachable state `su_close` completes, and releases all
objects exactly when none has been registered since the last collection. -/
theorem su_close_releases_iff {s : GcState} {registered freed : List Addr}
    (h : History s registered freed) :
    ReleasesAll s registered freed ↔ ∀ o ∈ s.objects, o.flag = .white := by
  have hclose := suClose_eq h.gcRun.quiescent.gray
  have hb := h.balanced
  constructor
  · rintro ⟨s', hs', hnil, -⟩ o ho
    rw [hclose] at hs'
    obtain rfl := Outcome.ok.inj hs'
    by_contra hne
    have hmem : o ∈ s.objects.filter (·.flag ≠ .white) :=
      List.mem_filter.mpr ⟨ho, decide_eq_true hne⟩
    rw [List.map_eq_nil_iff.mp hnil] at hmem
    cases hmem
  · intro hwhite
    have hnone : s.objects.filter (·.flag ≠ .white) = [] :=
      List.filter_eq_nil_iff.mpr fun o ho => by simpa using hwhite o ho
    have hmarked : markedAddrs s.objects = [] := by rw [markedAddrs, hnone]; rfl
    refine ⟨_, hclose, ?_, ?_, ?_⟩
    · exact congrArg (List.map _) hnone
    · have hsplit := length_eq_white s.objects
      rw [hmarked, List.length_nil] at hsplit
      have hcount := hb.count
      change s.numObjects - s.objects.countP (·.flag = .white) = 0
      omega
    · have hperm := white_or_marked s.objects
      rw [hmarked, List.append_nil] at hperm
      exact hb.perm.trans (List.Perm.append_left freed hperm)

/-- The interpreter after start-up and one collection. -/
def startedOld : GcState :=
  { suInit (· + 1) with
    objects := (suInit (· + 1)).objects.map fun o => { o with flag := .white } }

theorem startedOld_history :
    ∃ registered freed, History startedOld registered freed := by
  have hgc : suGc (suInit (· + 1)) = .ok startedOld := by decide +kernel
  have hinit : History (suInit (· + 1)) _ _ := .init (· + 1) (by decide)
  obtain ⟨s1, s2, h1, h2, -⟩ := (Cycle.suGc hgc).phases hinit.gcRun.quiescent
  exact ⟨_, _, hinit.collect (.suGc hgc) h1 h2⟩

/-- After a collection all is released. -/
theorem su_close_releases_started :
    ∃ registered freed, ReleasesAll startedOld registered freed := by
  obtain ⟨registered, freed, h⟩ := startedOld_history
  exact ⟨registered, freed, (su_close_releases_iff h).mpr (by decide)⟩

/-- Without one the ten objects of `su_init` are left. -/
theorem su_close_leaks :
    ¬ ∀ (s : GcState) (registered freed : List Addr),
      History s registered freed → ReleasesAll s registered freed := by
  intro h
  obtain ⟨s', hs', hnil, -⟩ := h _ _ _ (.init (· + 1) (by decide))
  rw [suClose_eq rfl] at hs'
  obtain rfl := Outcome.ok.inj hs'
  exact absurd hnil (by decide)

end Saurus
