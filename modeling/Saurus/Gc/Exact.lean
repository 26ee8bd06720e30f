import Saurus.Gc.Safety
import Saurus.Gc.Sweep

/-!
# What a cycle does when everything is old

A heap as the previous cycle leaves it: every object is white. On such a heap
the objects reached along old objects are all the objects reached, so a cycle
frees exactly the rest.

That the cycle completes is a matter of two things. A pointer that is followed
has to lead to an object, and the mark stack must not overflow; the latter is
said of the marker with an unbounded stack, whose moves the collector makes as
long as its own stack has room.
-/

namespace Saurus

open Basis Basis.Marking GcState

/-! ## Progress -/

theorem live_iff_lookup {s : GcState} {a : Addr} : Live s a ↔ ∃ o, s.lookup a = some o := by
  constructor
  · rintro ⟨o, ho, rfl⟩
    exact Option.isSome_iff_exists.mp (List.find?_isSome.mpr ⟨o, ho, by simp⟩)
  · rintro ⟨o, ho⟩
    exact ⟨o, lookup_mem ho, lookup_addr ho⟩

theorem GcState.Frame.live {s s' : GcState} (h : Frame s s') {a : Addr} :
    Live s' a ↔ Live s a := by
  have hmem : ∀ t : GcState, Live t a ↔ a ∈ t.objects.map (·.addr) := fun t => by
    rw [List.mem_map]
    rfl
  rw [hmem, hmem, h.addrs]

theorem addToGray_progress {s : GcState} {a : Addr} {n : Addr → List Addr}
    {owed : List Addr} (ha : Live s a) (hw : Within n graySize s.marker (a :: owed)) :
    ∃ s', addToGray s a = .ok s' := by
  obtain ⟨o, ho⟩ := live_iff_lookup.mp ha
  simp only [addToGray, ho]
  by_cases hf : o.flag = .white
  · have hroom : s.gray.length < graySize := by
      have hu : s.marker.mark a = .unseen := by
        rw [marker_mark, markOf_of_lookup ho, hf]
        rfl
      have hle := hw.meet.stack
      rw [visit, if_pos hu] at hle
      exact hle
    rw [if_neg (not_not.mpr hf), decide_eq_true hroom]
    exact ⟨_, rfl⟩
  · rw [if_pos hf]
    exact ⟨s, rfl⟩

theorem addAllToGray_progress {n : Addr → List Addr} {owed : List Addr} :
    ∀ {as : List Addr} {s : GcState}, (∀ a ∈ as, Live s a) →
      Within n graySize s.marker (as ++ owed) → ∃ s', addAllToGray s as = .ok s'
  | [], s, _, _ => ⟨s, rfl⟩
  | a :: as, s, hlive, hw => by
      rw [List.cons_append] at hw
      obtain ⟨s1, h1⟩ := addToGray_progress (hlive a List.mem_cons_self) hw
      obtain ⟨hm, hf, -⟩ := addToGray_ok h1
      have hw1 : Within n graySize s1.marker (as ++ owed) := hm ▸ hw.meet
      obtain ⟨s2, h2⟩ := addAllToGray_progress
        (fun b hb => hf.live.mpr (hlive b (List.mem_cons_of_mem _ hb))) hw1
      exact ⟨s2, by rw [addAllToGray, List.foldlM_cons, h1]; exact h2⟩

/-- Every pointer that is followed from an object leads to an object. -/
def FieldsLive (s : GcState) : Prop := ∀ a, ∀ b ∈ s.next a, Live s b

theorem GcState.Frame.fieldsLive {s s' : GcState} (h : Frame s s') (hs : FieldsLive s) :
    FieldsLive s' := fun a b hb => h.live.mpr (hs a b (h.next ▸ hb))

/-- One round of `scan` completes, and leaves a state to go on from. -/
theorem scanObject_progress {s : GcState} {a : Addr} {rest : List Addr}
    (hgray : s.gray = a :: rest) (hlive : ∀ b ∈ s.gray, Live s b) (hfields : FieldsLive s)
    (hw : Within s.next graySize s.marker []) :
    ∃ s', scanObject { s with gray := rest } a = .ok s' ∧ (∀ b ∈ s'.gray, Live s' b)
      ∧ FieldsLive s' ∧ Within s'.next graySize s'.marker [] := by
  obtain ⟨o, ho⟩ := live_iff_lookup.mp (hlive a (hgray ▸ List.mem_cons_self))
  have hrest : ∀ b ∈ rest, Live s b := fun b hb => hlive b (hgray ▸ List.mem_cons_of_mem _ hb)
  have hmark := markOf_of_lookup ho
  have hlook : ({ s with gray := rest } : GcState).lookup a = some o := ho
  by_cases hb : o.flag = .black
  · refine ⟨{ s with gray := rest }, ?_, hrest, hfields, ?_⟩
    · simp only [scanObject, hlook]
      exact if_pos hb
    · refine hw.move (.drop hgray ?_)
      rw [marker_mark, hmark, hb]
      rfl
  · have hnext : s.next a = children o.body := by rw [GcState.next, ho]
    have hnd : s.marker.mark a ≠ .done := by
      rw [marker_mark, hmark]
      exact fun hd => hb (GcFlag.mark_inj (g := .black) hd)
    have htaken := hw.move (.take hgray hnd)
    let s0 : GcState := { s with gray := rest }.setFlag a .black
    have hf0 : Frame s s0 := frame_setFlag s a .black rest
    have hmarker0 : s0.marker = ⟨Function.update s.markOf a .done, rest⟩ :=
      congrArg (Marker.mk · rest) (markOf_setFlag ho .black)
    have hw0 : Within s.next graySize s0.marker (children o.body ++ []) := by
      rw [hmarker0, List.append_nil, ← hnext]
      exact htaken
    have hchild : ∀ b ∈ children o.body, Live s0 b := fun b hb =>
      hf0.live.mpr (hfields a b (hnext ▸ hb))
    obtain ⟨s', h'⟩ := addAllToGray_progress hchild hw0
    obtain ⟨hm, hf, -⟩ := addAllToGray_ok h'
    have hfs : Frame s s' := hf0.trans hf
    refine ⟨s', ?_, fun b hb => ?_, hfs.fieldsLive hfields, ?_⟩
    · simp only [scanObject, hlook]
      rw [if_neg hb]
      exact h'
    · have hmem : b ∈ (visitAll s0.marker (children o.body)).stack := hm ▸ hb
      rcases mem_visitAll_stack hmem with hold | hnew
      · exact hfs.live.mpr (hrest b hold)
      · exact hf.live.mpr (hchild b hnew)
    · rw [hm, hfs.next]
      exact hw0.meetAll

theorem scan_progress : ∀ {n : Nat} {s : GcState}, scanBound s ≤ n →
    (∀ b ∈ s.gray, Live s b) → FieldsLive s → Within s.next graySize s.marker [] →
    ∃ s', scan s = .ok s' := by
  intro n
  induction n with
  | zero =>
      intro s hn _ _ _
      have hgray : s.gray = [] := List.length_eq_zero_iff.mp (by rw [scanBound] at hn; omega)
      exact ⟨s, by rw [scan_eq, hgray]; rfl⟩
  | succ n ih =>
      intro s hn hlive hfields hw
      cases hgray : s.gray with
      | nil => exact ⟨s, by rw [scan_eq, hgray]; rfl⟩
      | cons a rest =>
          obtain ⟨s1, h1, hlive1, hfields1, hw1⟩ := scanObject_progress hgray hlive hfields hw
          obtain ⟨-, -, hle⟩ := scanObject_ok h1
          have hpop := scanBound_pop hgray
          obtain ⟨s', h'⟩ := ih (by omega) hlive1 hfields1 hw1
          exact ⟨s', by rw [scan_eq, hgray]; dsimp only; rw [h1]; exact h'⟩

/-- Marking completes where every pointer that is followed leads to an object
and the stack is high enough. -/
theorem mark_progress {s : GcState} (hrooted : ∀ a ∈ s.roots, Live s a) (hfields : FieldsLive s)
    (hroom : Within s.next graySize ⟨s.markOf, []⟩ s.roots) :
    ∃ s1 s2, gcBegin s = .ok s1 ∧ scan s1 = .ok s2 := by
  let s0 : GcState := { s with gray := [] }
  have hf0 : Frame s s0 := ⟨rfl, rfl, rfl, rfl, rfl⟩
  have hw0 : Within s.next graySize s0.marker (s.roots ++ []) := by
    rw [List.append_nil]
    exact hroom
  obtain ⟨s1, h1⟩ := addAllToGray_progress (s := s0) hrooted hw0
  obtain ⟨hm1, hf1, -⟩ := addAllToGray_ok h1
  have hf01 : Frame s s1 := hf0.trans hf1
  have hgray : ∀ b ∈ s1.gray, Live s1 b := by
    intro b hb
    have hmem : b ∈ (visitAll s0.marker s.roots).stack := hm1 ▸ hb
    rcases mem_visitAll_stack hmem with hnil | hroot
    · cases hnil
    · exact hf01.live.mpr (hrooted b hroot)
  have hw1 : Within s1.next graySize s1.marker [] := by
    rw [hm1, hf01.next]
    exact hw0.meetAll
  obtain ⟨s2, h2⟩ := scan_progress (Nat.le_refl _) hgray (hf01.fieldsLive hfields) hw1
  exact ⟨s1, s2, h1, h2⟩

/-- It is enough to follow the pointers of the objects on the list. -/
theorem fieldsLive_of_objects {s : GcState}
    (h : ∀ o ∈ s.objects, ∀ a ∈ children o.body, Live s a) : FieldsLive s := by
  intro a b hb
  rw [GcState.next] at hb
  cases ho : s.lookup a with
  | none =>
      rw [ho] at hb
      cases hb
  | some o =>
      rw [ho] at hb
      exact h o (lookup_mem ho) b hb

/-! ## A cycle -/

/-- A heap of old objects that a cycle can be run on. -/
structure Collectable (s : GcState) : Prop where
  white : ∀ o ∈ s.objects, o.flag = .white
  nodup : (s.objects.map (·.addr)).Nodup
  rooted : ∀ a ∈ s.roots, Live s a
  fields : ∀ o ∈ s.objects, ∀ a ∈ children o.body, Live s a
  count : s.numObjects = s.objects.length
  room : Within s.next graySize ⟨s.markOf, []⟩ s.roots

theorem Collectable.fieldsLive {s : GcState} (hs : Collectable s) : FieldsLive s :=
  fieldsLive_of_objects hs.fields

/-- Everything that is there is old. -/
theorem Collectable.reached_iff {s : GcState} (hs : Collectable s) {a : Addr} :
    ReachedOld s a ↔ Reached s a := by
  refine ⟨ReachedOld.reached, Through.mono ?_⟩
  rintro _ ⟨o, ho, rfl⟩
  exact ⟨o, lookup_of_mem hs.nodup ho, hs.white o ho⟩

/-- Marking completes, and leaves white what cannot be reached. -/
theorem Collectable.mark {s : GcState} (hs : Collectable s) :
    ∃ s1 s2, gcBegin s = .ok s1 ∧ scan s1 = .ok s2 ∧ Frame s s2 ∧ s2.gray = []
      ∧ ∀ o ∈ s2.objects, o.flag ≠ .white ↔ Reached s o.addr := by
  obtain ⟨s1, s2, h1, h2⟩ := mark_progress hs.rooted hs.fieldsLive hs.room
  let s0 : GcState := { s with gray := [] }
  have hf0 : Frame s s0 := ⟨rfl, rfl, rfl, rfl, rfl⟩
  have hq : Quiescent s0 := ⟨rfl, fun o ho => Or.inr (hs.white o ho), hs.nodup⟩
  obtain ⟨hf, hnil, hmarked⟩ := marked_iff hq h1 h2
  have hf2 : Frame s s2 := hf0.trans hf
  refine ⟨s1, s2, h1, h2, hf2, hnil, fun o2 ho2 => ?_⟩
  have hmem : o2.addr ∈ s.objects.map (·.addr) := hf2.addrs ▸ List.mem_map_of_mem ho2
  obtain ⟨o, ho, haddr⟩ := List.mem_map.mp hmem
  have hlook := lookup_of_mem (hf2.addrs ▸ hs.nodup : (s2.objects.map (·.addr)).Nodup) ho2
  have hmark := hmarked o ho
  rw [haddr, markOf_of_lookup hlook, hs.white o ho] at hmark
  calc o2.flag ≠ .white
      ↔ o2.flag.mark ≠ .unseen :=
        not_congr ⟨fun h => by rw [h]; rfl, fun h => GcFlag.mark_inj (g := .white) h⟩
    _ ↔ ReachedOld s o2.addr := by
        rw [hmark]
        exact ⟨fun h => h.resolve_left (by decide), Or.inr⟩
    _ ↔ Reached s o2.addr := hs.reached_iff

/-- The object list after marking, cut by the flags, is the one before it, cut
by the property the flags record. -/
theorem cut_by_flags {p : Addr → Prop} [DecidablePred p] :
    ∀ {l l2 : List GcObject}, (∀ o ∈ l, o.flag = .white) →
      l2.map (fun o => (o.addr, o.body)) = l.map (fun o => (o.addr, o.body)) →
      (∀ o ∈ l2, o.flag ≠ .white ↔ p o.addr) →
      (l2.filter (·.flag ≠ .white)).map (fun o => { o with flag := .white })
          = l.filter (fun o => p o.addr)
        ∧ whiteAddrs l2 = (l.filter fun o => ¬ p o.addr).map (·.addr)
  | [], [], _, _, _ => ⟨rfl, rfl⟩
  | [], _ :: _, _, h, _ => nomatch h
  | _ :: _, [], _, h, _ => nomatch h
  | o :: l, o2 :: l2, hw, heq, hp => by
      rw [List.map_cons, List.map_cons, List.cons.injEq, Prod.mk.injEq] at heq
      obtain ⟨⟨haddr, hbody⟩, heq⟩ := heq
      obtain ⟨hwo, hwl⟩ := List.forall_mem_cons.mp hw
      obtain ⟨hpo, hpl⟩ := List.forall_mem_cons.mp hp
      obtain ⟨hkept, hfreed⟩ := cut_by_flags hwl heq hpl
      have hsame : ({ o2 with flag := .white } : GcObject) = o := by
        cases o
        simp_all
      rw [haddr] at hpo
      rw [whiteAddrs] at hfreed ⊢
      by_cases hflag : o2.flag = .white
      · have hno : ¬ p o.addr := fun h => hpo.mpr h hflag
        rw [List.filter_cons_of_neg (by simpa using hflag),
          List.filter_cons_of_neg (by simpa using hno),
          List.filter_cons_of_pos (by simpa using hflag),
          List.filter_cons_of_pos (by simpa using hno),
          List.map_cons, List.map_cons, haddr, hfreed]
        exact ⟨hkept, rfl⟩
      · have hyes : p o.addr := hpo.mp hflag
        rw [List.filter_cons_of_pos (by simpa using hflag),
          List.filter_cons_of_pos (by simpa using hyes),
          List.filter_cons_of_neg (by simpa using hflag),
          List.filter_cons_of_neg (by simpa using hyes),
          List.map_cons, hsame, hkept]
        exact ⟨rfl, hfreed⟩

theorem gcEnd_count {s : GcState} (h : s.numObjects = s.objects.length) :
    (gcEnd s).numObjects = (gcEnd s).objects.length := by
  have hsplit := List.length_eq_countP_add_countP (fun o : GcObject => o.flag = .white)
    (l := s.objects)
  have hkept : s.objects.countP (fun o => decide ¬ decide (o.flag = .white) = true)
      = s.objects.countP (fun o => decide (o.flag ≠ .white)) := by
    congr 1
    funext o
    simp
  simp only [gcEnd, List.length_map, ← List.countP_eq_length_filter]
  omega

open Classical in
/-- **A cycle is exact.** On a heap of old objects `begin`, `scan` and `end`
complete; what is left are the objects that can be reached, white and in their
order, and the loop of `end` frees each of the others once. -/
theorem cycle_exact {s : GcState} (hs : Collectable s) :
    ∃ s1 s2, gcBegin s = .ok s1 ∧ scan s1 = .ok s2
      ∧ gcEnd s2 = { s with
          objects := s.objects.filter fun o => Reached s o.addr
          numObjects := (s.objects.filter fun o => Reached s o.addr).length
          gray := [] }
      ∧ ∀ m, Listed s2 m → ∃ t, sweep.Runs m.sweepStart (.ok t)
        ∧ Listed (gcEnd s2) t.toHeaders
        ∧ t.freed = m.freed ++ (s.objects.filter fun o => ¬ Reached s o.addr).map (·.addr)
        ∧ ((s.objects.filter fun o => ¬ Reached s o.addr).map (·.addr)).Nodup := by
  obtain ⟨s1, s2, h1, h2, hf, hnil, hflags⟩ := hs.mark
  obtain ⟨hkept, hfreed⟩ := cut_by_flags (p := Reached s) hs.white hf.objects hflags
  have hlen : s2.objects.length = s.objects.length := by
    have := congrArg List.length hf.objects
    rwa [List.length_map, List.length_map] at this
  have hcount : s2.numObjects = s2.objects.length := by
    rw [hf.numObjects, hlen]
    exact hs.count
  have hobjects : (gcEnd s2).objects = s.objects.filter fun o => Reached s o.addr := hkept
  refine ⟨s1, s2, h1, h2, ?_, fun m hm => ?_⟩
  · have hnum := gcEnd_count hcount
    rw [hobjects] at hnum
    calc gcEnd s2
        = ⟨s2.stack, s2.globals, s2.strings, (gcEnd s2).objects, (gcEnd s2).numObjects,
            s2.gray⟩ := rfl
      _ = _ := by rw [hf.stack, hf.globals, hf.strings, hobjects, hnum, hnil]
  · have hnodup : (s2.objects.map (·.addr)).Nodup := hf.addrs ▸ hs.nodup
    obtain ⟨t, hruns, hlisted, hfreed'⟩ := sweep_runs hm hnodup
    refine ⟨t, hruns, hlisted, by rw [hfreed', hfreed], ?_⟩
    exact hs.nodup.sublist (List.filter_sublist.map _)

/-! ## A heap that fits the mark stack -/

/-- Up to `GC_GRAY_SIZE` objects the mark stack cannot overflow. -/
theorem within_of_length {s : GcState} (hw : ∀ o ∈ s.objects, o.flag = .white)
    (hlen : s.objects.length ≤ graySize) :
    Within s.next graySize ⟨s.markOf, []⟩ s.roots := by
  have hmark : ∀ a, s.markOf a = .apart ∨ s.markOf a = .unseen := fun a => by
    cases ho : s.lookup a with
    | none => exact Or.inl (by rw [markOf, ho])
    | some o =>
        refine Or.inr ?_
        rw [markOf_of_lookup ho, hw o (lookup_mem ho)]
        rfl
  have hnodes : ∀ a, s.markOf a = .unseen → a ∈ s.objects.map (·.addr) := fun a ha => by
    obtain ⟨o, ho, -⟩ := old_iff.mpr ha
    exact lookup_addr ho ▸ List.mem_map_of_mem (lookup_mem ho)
  intro t ht
  have hle := within_of_nodes hmark hnodes s.roots t ht
  rw [List.length_map] at hle
  exact Nat.le_trans hle hlen

/-- Two locals that hold each other, one of them on the stack, and a third
that holds itself. -/
def cyclicHeap : GcState where
  stack := [ptrValue .loc 11]
  globals := ⟨.nil, 0⟩
  strings := ⟨.nil, 0⟩
  objects := [⟨13, .white, .loc (ptrValue .loc 13)⟩, ⟨12, .white, .loc (ptrValue .loc 11)⟩,
    ⟨11, .white, .loc (ptrValue .loc 12)⟩]
  numObjects := 3
  gray := []

theorem cycle_exact_cyclic :
    ∃ s', suGc cyclicHeap = .ok s' ∧ ∀ o ∈ s'.objects, Reached cyclicHeap o.addr := by
  have hcollectable : Collectable cyclicHeap :=
    ⟨by decide, by decide, by decide +kernel, by decide +kernel, rfl,
      within_of_length (by decide) (by decide)⟩
  obtain ⟨s1, s2, h1, h2, hend, -⟩ := cycle_exact hcollectable
  refine ⟨gcEnd s2, ?_, fun o ho => ?_⟩
  · have hgray : cyclicHeap.gray = [] := rfl
    simp only [suGc, if_pos hgray, Outcome.pure_eq, Outcome.ok_bind, h1, h2]
  · rw [hend] at ho
    simpa using (List.mem_filter.mp ho).2

end Saurus
