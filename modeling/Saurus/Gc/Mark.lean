import Saurus.Basis.Marking
import Saurus.Gc.Heap

/-!
# The collector marks along white objects

`begin` and `scan` are the marker of `Basis.Marking` run on the object
list: white objects take part, transient ones (`GC_FLAG_TRANS`) are set
apart. Each function of the collector is a move of that marker
(`addToGray_ok`, `scanObject_ok`), so a finished `scan` has marked exactly
the objects reached from the roots along white objects (`marked_iff`).

The mark stack never receives an object twice, which bounds the rounds of
`scan` and makes its loop equation hold (`scan_eq`).
-/

namespace Saurus

open Basis Basis.Marking

/-! ## The marker behind the flags -/

/-- What a flag means to the marker. -/
def GcFlag.mark : GcFlag → Mark
  | .trans => .apart
  | .white => .unseen
  | .gray => .pending
  | .black => .done

theorem GcFlag.mark_inj {f g : GcFlag} (h : f.mark = g.mark) : f = g := by
  cases f <;> cases g <;> first | rfl | cases h

namespace GcState

def markOf (s : GcState) (a : Addr) : Mark :=
  match s.lookup a with
  | none => .apart
  | some o => o.flag.mark

/-- The marker a state of the collector stands for. -/
def marker (s : GcState) : Marker Addr := ⟨s.markOf, s.gray⟩

@[simp] theorem marker_mark (s : GcState) (a : Addr) : s.marker.mark a = s.markOf a := rfl
@[simp] theorem marker_stack (s : GcState) : s.marker.stack = s.gray := rfl

theorem lookup_addr {s : GcState} {a : Addr} {o : GcObject} (h : s.lookup a = some o) :
    o.addr = a := by
  have := List.find?_some h
  simpa using this

theorem lookup_mem {s : GcState} {a : Addr} {o : GcObject} (h : s.lookup a = some o) :
    o ∈ s.objects := List.mem_of_find?_eq_some h

theorem lookup_setFlag (s : GcState) (a : Addr) (f : GcFlag) (b : Addr) :
    (s.setFlag a f).lookup b
      = (s.lookup b).map fun o => if b = a then { o with flag := f } else o := by
  have hkey : ((fun o : GcObject => o.addr == b) ∘
      fun o => if o.addr = a then { o with flag := f } else o) = fun o => o.addr == b := by
    funext o
    by_cases ho : o.addr = a <;> simp [ho]
  rw [lookup, setFlag, List.find?_map, hkey, ← lookup]
  cases h : s.lookup b with
  | none => rfl
  | some o => rw [Option.map_some, Option.map_some, lookup_addr h]

theorem markOf_of_lookup {s : GcState} {a : Addr} {o : GcObject} (h : s.lookup a = some o) :
    s.markOf a = o.flag.mark := by
  rw [markOf, h]

theorem markOf_setFlag {s : GcState} {a : Addr} {o : GcObject} (h : s.lookup a = some o)
    (f : GcFlag) : (s.setFlag a f).markOf = Function.update s.markOf a f.mark := by
  funext b
  rw [markOf, lookup_setFlag]
  by_cases hb : b = a
  · subst hb
    rw [h, Function.update_self, Option.map_some, if_pos rfl]
  · rw [Function.update_of_ne hb, markOf]
    cases s.lookup b with
    | none => rfl
    | some o => rw [Option.map_some, if_neg hb]

/-- Everything but the flags and the mark stack is as before. -/
structure Frame (s s' : GcState) : Prop where
  stack : s'.stack = s.stack
  globals : s'.globals = s.globals
  strings : s'.strings = s.strings
  numObjects : s'.numObjects = s.numObjects
  objects : s'.objects.map (fun o => (o.addr, o.body)) = s.objects.map fun o => (o.addr, o.body)

theorem Frame.refl (s : GcState) : Frame s s := ⟨rfl, rfl, rfl, rfl, rfl⟩

theorem Frame.trans {s s' t : GcState} (h : Frame s s') (h' : Frame s' t) : Frame s t :=
  ⟨h'.stack.trans h.stack, h'.globals.trans h.globals, h'.strings.trans h.strings,
    h'.numObjects.trans h.numObjects, h'.objects.trans h.objects⟩

theorem frame_setFlag (s : GcState) (a : Addr) (f : GcFlag) (g : List Addr) :
    Frame s { s.setFlag a f with gray := g } := by
  refine ⟨rfl, rfl, rfl, rfl, ?_⟩
  rw [setFlag, List.map_map]
  refine List.map_congr_left fun o _ => ?_
  by_cases ho : o.addr = a <;> simp [ho]

theorem Frame.addrs {s s' : GcState} (h : Frame s s') :
    s'.objects.map (·.addr) = s.objects.map (·.addr) := by
  have := congrArg (List.map Prod.fst) h.objects
  simpa [List.map_map, Function.comp_def] using this

theorem next_eq (s : GcState) (a : Addr) :
    s.next a = (((s.objects.map fun o => (o.addr, o.body)).find? (·.1 == a)).map
      fun p => children p.2).getD [] := by
  rw [List.find?_map, next, lookup, Option.map_map]
  change _ = ((s.objects.find? (·.addr == a)).map _).getD []
  cases s.objects.find? (·.addr == a) <;> rfl

theorem Frame.next {s s' : GcState} (h : Frame s s') : s'.next = s.next := by
  funext a
  rw [next_eq, next_eq, h.objects]

end GcState

open GcState

/-! ## Rounds of `scan` -/

theorem countP_setFlag_le {f : GcFlag} (hf : f ≠ .white) (a : Addr) (os : List GcObject) :
    (os.map fun o => if o.addr = a then { o with flag := f } else o).countP (·.flag = .white)
      ≤ os.countP (·.flag = .white) := by
  rw [List.countP_map]
  refine List.countP_mono_left fun o _ h => ?_
  by_cases ho : o.addr = a
  · simp [ho, hf] at h
  · simpa [ho] using h

theorem countP_setFlag_lt {f : GcFlag} (hf : f ≠ .white) {a : Addr} {o : GcObject} :
    ∀ {os : List GcObject}, os.find? (·.addr == a) = some o → o.flag = .white →
    (os.map fun o => if o.addr = a then { o with flag := f } else o).countP (·.flag = .white)
      < os.countP (·.flag = .white)
  | [], h, _ => by cases h
  | p :: os, h, ho => by
      have hle := countP_setFlag_le hf a os
      rw [List.map_cons, List.countP_cons, List.countP_cons]
      by_cases hp : p.addr = a
      · rw [List.find?_cons_of_pos (by simpa using hp)] at h
        obtain rfl := Option.some.inj h
        simp only [hp, if_true, ho, hf, decide_true, decide_false, Bool.false_eq_true, if_false]
        omega
      · rw [List.find?_cons_of_neg (by simpa using hp)] at h
        have hlt := countP_setFlag_lt hf h ho
        rw [if_neg hp]
        omega

/-! ## One move -/

/-- `add_to_gray` meets one node. -/
theorem addToGray_ok {s s' : GcState} {a : Addr} (h : addToGray s a = .ok s') :
    s'.marker = visit s.marker a ∧ Frame s s' ∧ scanBound s' ≤ scanBound s := by
  rw [addToGray] at h
  cases ho : s.lookup a with
  | none => rw [ho] at h; cases h
  | some o =>
      rw [ho] at h
      dsimp only at h
      by_cases hw : o.flag = .white
      · rw [if_neg (by simpa using hw)] at h
        obtain ⟨_, -, heq⟩ := Outcome.bind_eq_ok.mp h
        cases heq
        refine ⟨?_, frame_setFlag .., ?_⟩
        · rw [visit, if_pos (by rw [marker_mark, markOf_of_lookup ho, hw]; rfl)]
          exact congrArg (Marker.mk · (a :: s.gray)) (markOf_setFlag ho .gray)
        · have hlt := countP_setFlag_lt (f := .gray) (by decide) ho hw
          simp only [scanBound, List.length_cons, setFlag]
          omega
      · rw [if_pos hw] at h
        cases h
        refine ⟨?_, Frame.refl s, Nat.le_refl _⟩
        rw [visit, if_neg]
        rw [marker_mark, markOf_of_lookup ho]
        exact fun hu => hw (GcFlag.mark_inj hu)

theorem addAllToGray_ok : ∀ {as : List Addr} {s s' : GcState}, addAllToGray s as = .ok s' →
    s'.marker = visitAll s.marker as ∧ Frame s s' ∧ scanBound s' ≤ scanBound s
  | [], s, s', h => by
      cases h
      exact ⟨rfl, Frame.refl s, Nat.le_refl _⟩
  | a :: as, s, s', h => by
      rw [addAllToGray, List.foldlM_cons] at h
      obtain ⟨s1, h1, hrest⟩ := Outcome.bind_eq_ok.mp h
      obtain ⟨hm1, hf1, hb1⟩ := addToGray_ok h1
      obtain ⟨hm, hf, hb⟩ := addAllToGray_ok hrest
      exact ⟨by rw [hm, hm1]; rfl, hf1.trans hf, Nat.le_trans hb hb1⟩

/-- One round of `scan`: drop a node met twice, or expand it. -/
theorem scanObject_ok {s s' : GcState} {a : Addr} (h : scanObject s a = .ok s') :
    (s.markOf a = .done ∧ s' = s
      ∨ s'.marker = expand s.next s.marker a s.gray)
      ∧ Frame s s' ∧ scanBound s' ≤ scanBound s := by
  rw [scanObject] at h
  cases ho : s.lookup a with
  | none => rw [ho] at h; cases h
  | some o =>
      rw [ho] at h
      dsimp only at h
      by_cases hb : o.flag = .black
      · rw [if_pos hb] at h
        cases h
        exact ⟨Or.inl ⟨by rw [markOf_of_lookup ho, hb]; rfl, rfl⟩, Frame.refl s, Nat.le_refl _⟩
      · rw [if_neg hb] at h
        obtain ⟨hm, hf, hle⟩ := addAllToGray_ok h
        refine ⟨Or.inr ?_, (frame_setFlag s a .black s.gray).trans hf, Nat.le_trans hle ?_⟩
        · have hnext : s.next a = children o.body := by rw [GcState.next, ho]
          rw [hm, expand, hnext]
          exact congrArg (fun m => visitAll (Marker.mk m s.gray) (children o.body))
            (markOf_setFlag ho .black)
        · exact Nat.add_le_add_left (countP_setFlag_le (by decide) a s.objects) _

/-! ## The loop of `scan` -/

theorem scanBound_pop {s : GcState} {a : Addr} {rest : List Addr} (hs : s.gray = a :: rest) :
    scanBound { s with gray := rest } + 1 = scanBound s := by
  simp only [scanBound, hs, List.length_cons]
  omega

/-- Rounds beyond the bound do nothing. -/
theorem scanLoop_enough : ∀ {n : Nat} {s : GcState}, scanBound s ≤ n →
    ∀ {fuel : Nat}, n ≤ fuel → scanLoop fuel s = scanLoop n s
  | 0, s, hn, fuel, _ => by
      have hgray : s.gray = [] := List.length_eq_zero_iff.mp (by rw [scanBound] at hn; omega)
      cases fuel with
      | zero => rfl
      | succ fuel => rw [scanLoop, scanLoop, hgray]
  | n + 1, s, hn, fuel, hle => by
      obtain ⟨k, rfl⟩ : ∃ k, fuel = k + 1 := ⟨fuel - 1, by omega⟩
      rw [scanLoop, scanLoop]
      cases hgray : s.gray with
      | nil => rfl
      | cons a rest =>
          dsimp only
          have hpop := scanBound_pop hgray
          cases hobj : scanObject { s with gray := rest } a with
          | raise m => rfl
          | fault => rfl
          | ok s1 =>
              obtain ⟨-, -, hle1⟩ := scanObject_ok hobj
              exact scanLoop_enough (by omega) (by omega)

/-- `scan` is the loop of the source: it ends with an empty mark stack and
not because of the bound. -/
theorem scan_eq (s : GcState) :
    scan s = match s.gray with
      | [] => pure s
      | a :: rest => scanObject { s with gray := rest } a >>= scan := by
  cases hgray : s.gray with
  | nil =>
      rw [scan]
      cases scanBound s with
      | zero => rfl
      | succ n => rw [scanLoop, hgray]
  | cons a rest =>
      have hpop := scanBound_pop hgray
      rw [scan, ← hpop, scanLoop, hgray]
      dsimp only
      cases hobj : scanObject { s with gray := rest } a with
      | raise m => rfl
      | fault => rfl
      | ok s1 =>
          obtain ⟨-, -, hle⟩ := scanObject_ok hobj
          exact scanLoop_enough (Nat.le_refl _) hle

/-- What a completed `scan` leaves. -/
theorem scan_ok {m : Addr → Mark} {roots : List Addr} :
    ∀ {n : Nat} {s s' : GcState}, scanBound s ≤ n → scan s = .ok s' →
      Inv s.next m roots [] s.marker →
      Inv s.next m roots [] s'.marker ∧ s'.gray = [] ∧ Frame s s' := by
  intro n
  induction n with
  | zero =>
      intro s s' hn h hinv
      have hgray : s.gray = [] := List.length_eq_zero_iff.mp (by rw [scanBound] at hn; omega)
      rw [scan_eq, hgray] at h
      cases h
      exact ⟨hinv, hgray, Frame.refl s⟩
  | succ n ih =>
      intro s s' hn h hinv
      rw [scan_eq] at h
      cases hgray : s.gray with
      | nil =>
          rw [hgray] at h
          cases h
          exact ⟨hinv, hgray, Frame.refl s⟩
      | cons a rest =>
          rw [hgray] at h
          obtain ⟨s1, h1, hrest⟩ := Outcome.bind_eq_ok.mp h
          obtain ⟨hcase, hf, hle⟩ := scanObject_ok h1
          have hpop := scanBound_pop hgray
          have hf1 : Frame s s1 := ⟨hf.stack, hf.globals, hf.strings, hf.numObjects, hf.objects⟩
          have hnext : s1.next = s.next := hf1.next
          have hinv1 : Inv s.next m roots [] s1.marker := by
            rcases hcase with ⟨hdone, rfl⟩ | hexp
            · exact hinv.drop hgray hdone
            · rw [hexp]
              exact hinv.expand hgray
          obtain ⟨hinv', hnil, hf'⟩ := ih (by omega) hrest (hnext ▸ hinv1)
          exact ⟨hnext ▸ hinv', hnil, hf1.trans hf'⟩

/-! ## A whole cycle -/

/-- The heap between two collections. -/
structure Quiescent (s : GcState) : Prop where
  gray : s.gray = []
  flags : ∀ o ∈ s.objects, o.flag = .trans ∨ o.flag = .white
  nodup : (s.objects.map (·.addr)).Nodup

/-- An object that was there at the end of the previous collection. -/
def Old (s : GcState) (a : Addr) : Prop := ∃ o, s.lookup a = some o ∧ o.flag = .white

/-- An object is at this address. -/
def Live (s : GcState) (a : Addr) : Prop := ∃ o ∈ s.objects, o.addr = a

instance (s : GcState) (a : Addr) : Decidable (Live s a) :=
  inferInstanceAs (Decidable (∃ o ∈ s.objects, o.addr = a))

/-- Reachable from the stack, `globals` or `strings` through the fields
that `scan` follows. -/
def Reached (s : GcState) (a : Addr) : Prop := Through s.next (Live s) s.roots a

/-- Reachable along old objects only. -/
def ReachedOld (s : GcState) (a : Addr) : Prop := Through s.next (Old s) s.roots a

theorem old_iff {s : GcState} {a : Addr} : Old s a ↔ s.markOf a = .unseen := by
  rw [Old, markOf]
  cases s.lookup a with
  | none => simp
  | some o =>
      refine ⟨fun ⟨p, hp, hw⟩ => ?_, fun h => ⟨o, rfl, GcFlag.mark_inj h⟩⟩
      cases hp
      exact congrArg GcFlag.mark hw

theorem ReachedOld.reached {s : GcState} {a : Addr} (h : ReachedOld s a) : Reached s a :=
  Through.mono (fun _ ⟨o, ho, _⟩ => ⟨o, lookup_mem ho, lookup_addr ho⟩) h

theorem lookup_of_mem {s : GcState} (hs : (s.objects.map (·.addr)).Nodup) {o : GcObject}
    (ho : o ∈ s.objects) : s.lookup o.addr = some o := by
  rw [GcState.lookup]
  induction hobj : s.objects generalizing s with
  | nil => rw [hobj] at ho; cases ho
  | cons p os ih =>
      rw [hobj] at ho hs
      rw [List.map_cons, List.nodup_cons] at hs
      rcases List.mem_cons.mp ho with rfl | ho
      · rw [List.find?_cons_of_pos (by simp)]
      · have hne : p.addr ≠ o.addr := fun heq =>
          hs.1 (heq ▸ List.mem_map_of_mem ho)
        rw [List.find?_cons_of_neg (by simpa using hne)]
        exact ih (s := { s with objects := os }) hs.2 ho rfl

/-- **Marking.** After `begin` and `scan` an object is left unmarked exactly
when it is old and no path of old objects leads to it. -/
theorem marked_iff {s s1 s2 : GcState} (hs : Quiescent s) (hbegin : gcBegin s = .ok s1)
    (hscan : scan s1 = .ok s2) :
    Frame s s2 ∧ s2.gray = [] ∧ ∀ o ∈ s.objects,
      (s2.markOf o.addr ≠ .unseen ↔ o.flag = .trans ∨ ReachedOld s o.addr) := by
  have hmark : ∀ a, s.markOf a = .apart ∨ s.markOf a = .unseen := fun a => by
    cases ho : s.lookup a with
    | none => exact Or.inl (by rw [markOf, ho])
    | some o =>
        rw [markOf_of_lookup ho]
        rcases hs.flags o (lookup_mem ho) with hf | hf
        · exact Or.inl (by rw [hf]; rfl)
        · exact Or.inr (by rw [hf]; rfl)
  have hold : (fun b => s.markOf b = .unseen) = Old s := funext fun b => propext old_iff.symm
  rw [gcBegin] at hbegin
  obtain ⟨hm1, hf1, -⟩ := addAllToGray_ok hbegin
  have hf01 : Frame s s1 := ⟨hf1.stack, hf1.globals, hf1.strings, hf1.numObjects, hf1.objects⟩
  have hinv1 : Inv s.next s.markOf s.roots [] s1.marker := by
    rw [hm1]
    exact inv_begin hmark
  have hnext : s1.next = s.next := hf01.next
  obtain ⟨hinv, hnil, hf2⟩ := scan_ok (Nat.le_refl _) hscan (hnext ▸ hinv1)
  rw [hnext] at hinv
  refine ⟨hf01.trans hf2, hnil, fun o ho => ?_⟩
  have hlook := lookup_of_mem hs.nodup ho
  rcases hs.flags o ho with hf | hf
  · have hm : s.markOf o.addr = .apart := by rw [markOf_of_lookup hlook, hf]; rfl
    have hkeep := hinv.apart o.addr (by rw [hm]; decide)
    refine ⟨fun _ => Or.inl hf, fun _ => ?_⟩
    rw [marker_mark, hm] at hkeep
    rw [hkeep]
    decide
  · have hm : s.markOf o.addr = .unseen := by rw [markOf_of_lookup hlook, hf]; rfl
    have hiff := hinv.done_iff hnil hm
    rw [marker_mark, hold] at hiff
    rw [hiff, hf]
    exact ⟨Or.inr, fun h => h.resolve_left (by decide)⟩

/-- `end` keeps the marked objects and makes them old. -/
theorem survives_iff {s s2 : GcState} (hs : (s.objects.map (·.addr)).Nodup) (hf : Frame s s2)
    {o : GcObject} (ho : o ∈ s.objects) :
    Live (gcEnd s2) o.addr ↔ s2.markOf o.addr ≠ .unseen := by
  have hnodup2 : (s2.objects.map (·.addr)).Nodup := hf.addrs ▸ hs
  have hmem : o.addr ∈ s2.objects.map (·.addr) := hf.addrs ▸ List.mem_map_of_mem ho
  obtain ⟨o2, ho2, haddr⟩ := List.mem_map.mp hmem
  have hlook := lookup_of_mem hnodup2 ho2
  rw [haddr] at hlook
  rw [markOf_of_lookup hlook]
  constructor
  · rintro ⟨p, hp, hpa⟩ hu
    obtain ⟨q, hq, rfl⟩ := List.mem_map.mp hp
    obtain ⟨hq, hqf⟩ := List.mem_filter.mp hq
    have hqo : q = o2 := by
      have := lookup_of_mem hnodup2 hq
      rw [hpa, hlook] at this
      exact (Option.some.inj this).symm
    rw [hqo] at hqf
    simp [GcFlag.mark_inj (g := .white) hu] at hqf
  · intro hne
    have hw : o2.flag ≠ .white := fun hw => hne (by rw [hw]; rfl)
    exact ⟨{ o2 with flag := .white },
      List.mem_map.mpr ⟨o2, List.mem_filter.mpr ⟨ho2, by simpa using hw⟩, rfl⟩, haddr⟩

theorem quiescent_gcEnd {s : GcState} (hgray : s.gray = [])
    (hnodup : (s.objects.map (·.addr)).Nodup) : Quiescent (gcEnd s) where
  gray := hgray
  flags := fun o ho => by
    obtain ⟨p, -, rfl⟩ := List.mem_map.mp ho
    exact Or.inr rfl
  nodup := by
    rw [gcEnd, List.map_map]
    exact hnodup.sublist (List.filter_sublist.map _)

end Saurus
