import Saurus.Basis.Chain
import Saurus.Basis.Machine
import Saurus.Gc.Mark

/-!
# The sweep

`end` walks the `gc_root` list with two pointers and unlinks the white
objects as it goes. Here the list is what it is in memory, links between
headers, and freed memory must not be touched again; `Listed` says which
`GcState` such a memory holds. The walk ends, and leaves the memory of
`gcEnd` (`sweep_runs`).

The invariant of the loop, `Sweeping`, cuts the list at the current object:
what is before it has been kept and is white, what is behind it is as it was.
-/

namespace Saurus

open Basis

/-- The headers of the objects in memory, and `freed`, the addresses that have
been given back, the latest one last. -/
structure Headers where
  next : Addr → Addr
  flags : Addr → GcFlag
  root : Addr
  numObjects : Nat
  freed : List Addr

/-- `end` in its loop. -/
structure Sweep extends Headers where
  prev : Addr
  obj : Addr

namespace Headers

/-- Reading or writing the header of an object. -/
def access (m : Headers) (a : Addr) : Outcome Unit :=
  Outcome.require (decide (a ≠ 0 ∧ a ∉ m.freed))

/-- `obj->flags = f` -/
def setFlags (m : Headers) (a : Addr) (f : GcFlag) : Headers :=
  { m with flags := Function.update m.flags a f }

/-- `prev->next = q`, or `s->gc_root = q` when there is no `prev`. -/
def unlink (m : Headers) (prev q : Addr) : Outcome Headers :=
  if prev ≠ 0 then do
    m.access prev
    pure { m with next := Function.update m.next prev q }
  else pure { m with root := q }

/-- `free_object(s, obj)` and `s->num_objects--`. -/
def free (m : Headers) (a : Addr) : Outcome Headers := do
  m.access a
  pure { m with freed := m.freed ++ [a], numObjects := m.numObjects - 1 }

/-- Before the loop of `end`. -/
def sweepStart (m : Headers) : Sweep := { m with prev := 0, obj := m.root }

end Headers

/-- One turn of the loop of `end`. -/
def sweepStep (t : Sweep) : Outcome Sweep := do
  t.access t.obj
  if t.flags t.obj = .white then do
    let m ← t.unlink t.prev (t.next t.obj)
    let obj := m.next t.obj
    let m ← m.free t.obj
    pure { m with prev := t.prev, obj := obj }
  else pure { t.setFlags t.obj .white with prev := t.obj, obj := t.next t.obj }

/-- The loop of `end`. Every object is given back on its own, whatever block it
is in; where several share a block, this is the subject of `own_blocks_iff`. -/
def sweep : Machine Sweep := ⟨sweepStep, fun t => t.obj = 0⟩

/-- The memory holds the object list of `s`. -/
structure Listed (s : GcState) (m : Headers) : Prop where
  chain : Seg m.next m.root (s.objects.map (·.addr)) 0
  flags : ∀ o ∈ s.objects, m.flags o.addr = o.flag
  count : m.numObjects = s.numObjects
  freed : ∀ o ∈ s.objects, o.addr ∉ m.freed

/-! ## The loop invariant -/

/-- The loop has kept the objects at `kept` and comes to `rest` next. -/
structure Sweeping (kept : List Addr) (rest : List GcObject) (t : Sweep) : Prop where
  before : Seg t.next t.root kept t.obj
  after : Seg t.next t.obj (rest.map (·.addr)) 0
  last : t.prev = kept.getLastD 0
  nodup : (kept ++ rest.map (·.addr)).Nodup
  white : ∀ a ∈ kept, t.flags a = .white
  flags : ∀ o ∈ rest, t.flags o.addr = o.flag
  freed : ∀ a ∈ kept ++ rest.map (·.addr), a ∉ t.freed

theorem Listed.sweeping {s : GcState} {m : Headers} (h : Listed s m)
    (hs : (s.objects.map (·.addr)).Nodup) : Sweeping [] s.objects m.sweepStart where
  before := rfl
  after := h.chain
  last := rfl
  nodup := hs
  white := fun a ha => absurd ha List.not_mem_nil
  flags := h.flags
  freed := fun a ha => by
    obtain ⟨o, ho, rfl⟩ := List.mem_map.mp ha
    exact h.freed o ho

/-! ## One turn -/

theorem access_ok {m : Headers} {a : Addr} (h0 : a ≠ 0) (hf : a ∉ m.freed) :
    m.access a = .ok () := by
  rw [Headers.access, decide_eq_true ⟨h0, hf⟩]
  rfl

theorem sweepStep_keep {t : Sweep} (ha : t.access t.obj = .ok ())
    (hw : t.flags t.obj ≠ .white) :
    sweepStep t
      = .ok { t.setFlags t.obj .white with prev := t.obj, obj := t.next t.obj } := by
  rw [sweepStep, ha, Outcome.ok_bind, if_neg hw]
  rfl

theorem sweepStep_free {t : Sweep} {m m' : Headers} (ha : t.access t.obj = .ok ())
    (hw : t.flags t.obj = .white) (hm : t.unlink t.prev (t.next t.obj) = .ok m)
    (hm' : m.free t.obj = .ok m') :
    sweepStep t = .ok { m' with prev := t.prev, obj := m.next t.obj } := by
  rw [sweepStep, ha, Outcome.ok_bind, if_pos hw, hm, Outcome.ok_bind, hm']
  rfl

/-- The object the loop is at. -/
theorem Sweeping.head {kept : List Addr} {o : GcObject} {rest : List GcObject} {t : Sweep}
    (h : Sweeping kept (o :: rest) t) :
    t.obj = o.addr ∧ o.addr ≠ 0 ∧ t.access t.obj = .ok () ∧ t.flags t.obj = o.flag := by
  have hafter := h.after
  rw [List.map_cons] at hafter
  obtain ⟨hobj, h0, -⟩ := hafter
  have hfreed : o.addr ∉ t.freed := h.freed _ (by simp)
  rw [hobj]
  exact ⟨rfl, h0, access_ok h0 hfreed, h.flags o List.mem_cons_self⟩

/-- The object at hand is none of those before or behind it. -/
theorem Sweeping.distinct {kept : List Addr} {o : GcObject} {rest : List GcObject} {t : Sweep}
    (h : Sweeping kept (o :: rest) t) :
    o.addr ∉ kept ∧ (∀ p ∈ rest, p.addr ≠ o.addr) ∧ (∀ p ∈ rest, p.addr ∉ kept)
      ∧ (kept ++ rest.map (·.addr)).Nodup := by
  have hn := h.nodup
  rw [List.map_cons, List.nodup_append, List.nodup_cons] at hn
  obtain ⟨hk, ⟨ho, hr⟩, hdisj⟩ := hn
  refine ⟨fun hmem => hdisj _ hmem _ List.mem_cons_self rfl, fun p hp heq => ?_,
    fun p hp hmem => ?_, ?_⟩
  · exact ho (heq ▸ List.mem_map_of_mem hp)
  · exact hdisj _ hmem _ (List.mem_cons_of_mem _ (List.mem_map_of_mem hp)) rfl
  · exact List.nodup_append.mpr
      ⟨hk, hr, fun a ha b hb => hdisj a ha b (List.mem_cons_of_mem _ hb)⟩

/-- A marked object is kept. -/
theorem Sweeping.keep {kept : List Addr} {o : GcObject} {rest : List GcObject} {t : Sweep}
    (h : Sweeping kept (o :: rest) t) (hw : o.flag ≠ .white) :
    ∃ t', sweepStep t = .ok t' ∧ Sweeping (kept ++ [o.addr]) rest t'
      ∧ t'.freed = t.freed ∧ t'.numObjects = t.numObjects := by
  obtain ⟨hobj, h0, haccess, hflag⟩ := h.head
  obtain ⟨hkept, hrest, -, -⟩ := h.distinct
  have hlist : (kept ++ [o.addr]) ++ rest.map (·.addr)
      = kept ++ (o :: rest).map (·.addr) := by simp
  refine ⟨_, sweepStep_keep haccess (hflag ▸ hw), ⟨?_, ?_, ?_, ?_, ?_, ?_, ?_⟩, rfl, rfl⟩
  · have hsnoc := h.before.snoc (hobj ▸ h0)
    rwa [hobj] at hsnoc ⊢
  · exact hobj ▸ h.after.2.2
  · simp [hobj]
  · rw [hlist]
    exact h.nodup
  · intro a ha
    rw [hobj]
    rcases List.mem_append.mp ha with ha | ha
    · exact (Function.update_of_ne (ne_of_mem_of_not_mem ha hkept) ..).trans (h.white a ha)
    · rw [List.mem_singleton.mp ha]
      exact Function.update_self ..
  · intro p hp
    rw [hobj]
    exact (Function.update_of_ne (hrest p hp) ..).trans (h.flags p (List.mem_cons_of_mem _ hp))
  · rw [hlist]
    exact h.freed

/-- Taking the current object out of the list. -/
theorem Sweeping.unlink {kept : List Addr} {o : GcObject} {rest : List GcObject} {t : Sweep}
    (h : Sweeping kept (o :: rest) t) :
    ∃ m, t.unlink t.prev (t.next t.obj) = .ok m ∧ Seg m.next m.root kept (t.next t.obj)
      ∧ (∀ a, a ∉ kept → m.next a = t.next a) ∧ m.flags = t.flags ∧ m.freed = t.freed
      ∧ m.numObjects = t.numObjects := by
  rcases List.eq_nil_or_concat kept with rfl | ⟨front, p, rfl⟩
  · have hprev : t.prev = 0 := h.last
    refine ⟨{ t.toHeaders with root := t.next t.obj }, ?_, rfl, fun _ _ => rfl, rfl, rfl, rfl⟩
    rw [Headers.unlink, hprev, if_neg (not_not.mpr rfl)]
    rfl
  · rw [List.concat_eq_append] at h ⊢
    have hprev : t.prev = p := by simpa using h.last
    obtain ⟨-, -, -, hp0, -⟩ := seg_append.mp h.before
    have hpf : p ∉ t.freed := h.freed p (by simp)
    have hfront : p ∉ front := by
      have hn := (List.nodup_append.mp h.nodup).1
      exact fun hmem => (List.nodup_append.mp hn).2.2 p hmem p List.mem_cons_self rfl
    refine ⟨{ t.toHeaders with next := Function.update t.next p (t.next t.obj) }, ?_,
      h.before.relink hfront _, fun a ha => ?_, rfl, rfl, rfl⟩
    · rw [Headers.unlink, hprev, if_pos hp0, access_ok hp0 hpf]
      rfl
    · exact Function.update_of_ne (ne_of_mem_of_not_mem (by simp) ha).symm ..

/-- A white object is freed. -/
theorem Sweeping.free {kept : List Addr} {o : GcObject} {rest : List GcObject} {t : Sweep}
    (h : Sweeping kept (o :: rest) t) (hw : o.flag = .white) :
    ∃ t', sweepStep t = .ok t' ∧ Sweeping kept rest t'
      ∧ t'.freed = t.freed ++ [o.addr] ∧ t'.numObjects = t.numObjects - 1 := by
  obtain ⟨hobj, h0, haccess, hflag⟩ := h.head
  obtain ⟨hkept, hrest, hapart, hnodup⟩ := h.distinct
  obtain ⟨m, hm, hseg, hnext, hflags, hfreed, hcount⟩ := h.unlink
  have hfresh : o.addr ∉ m.freed := by
    rw [hfreed]
    exact h.freed _ (by simp)
  have hfree : m.free t.obj = .ok { m with
      freed := m.freed ++ [t.obj], numObjects := m.numObjects - 1 } := by
    rw [Headers.free, hobj, access_ok h0 hfresh]
    rfl
  have hobj' : m.next t.obj = t.next t.obj := hnext _ (hobj ▸ hkept)
  refine ⟨_, sweepStep_free haccess (hflag.trans hw) hm hfree, ⟨?_, ?_, h.last, hnodup, ?_, ?_, ?_⟩,
    ?_, ?_⟩
  · rw [hobj']
    exact hseg
  · rw [hobj']
    have htail : Seg t.next (t.next t.obj) (rest.map (·.addr)) 0 := hobj ▸ h.after.2.2
    refine htail.congr fun a ha => hnext a ?_
    obtain ⟨p, hp, rfl⟩ := List.mem_map.mp ha
    exact hapart p hp
  · rw [hflags]
    exact h.white
  · rw [hflags]
    exact fun p hp => h.flags p (List.mem_cons_of_mem _ hp)
  · intro a ha hmem
    rw [hfreed, hobj] at hmem
    rcases List.mem_append.mp hmem with hold | hnew
    · refine h.freed a ?_ hold
      rcases List.mem_append.mp ha with ha | ha
      · exact List.mem_append_left _ ha
      · exact List.mem_append_right _ (List.mem_cons_of_mem _ ha)
    · rw [List.mem_singleton.mp hnew] at ha
      rcases List.mem_append.mp ha with ha | ha
      · exact hkept ha
      · obtain ⟨p, hp, heq⟩ := List.mem_map.mp ha
        exact hrest p hp heq
  · rw [hfreed, hobj]
  · rw [hcount]

/-! ## The whole walk -/

/-- The objects `end` frees, in the order it comes to them. -/
def whiteAddrs (objects : List GcObject) : List Addr :=
  (objects.filter (·.flag = .white)).map (·.addr)

/-- The objects it keeps. -/
def markedAddrs (objects : List GcObject) : List Addr :=
  (objects.filter (·.flag ≠ .white)).map (·.addr)

/-- The loop runs to the end of the list. -/
theorem Sweeping.runs : ∀ {rest : List GcObject} {kept : List Addr} {t : Sweep},
    Sweeping kept rest t → ∃ t', sweep.Runs t (.ok t')
      ∧ Sweeping (kept ++ markedAddrs rest) [] t'
      ∧ t'.freed = t.freed ++ whiteAddrs rest
      ∧ t'.numObjects = t.numObjects - rest.countP (·.flag = .white)
  | [], kept, t, h => by
      refine ⟨t, .halt h.after, ?_, by simp [whiteAddrs], by simp⟩
      rwa [markedAddrs, List.filter_nil, List.map_nil, List.append_nil]
  | o :: rest, kept, t, h => by
      obtain ⟨hobj, h0, -, -⟩ := h.head
      have hgo : ¬ sweep.halted t := fun hh => h0 (hobj.symm.trans hh)
      by_cases hw : o.flag = .white
      · obtain ⟨t1, hstep, h1, hfreed, hcount⟩ := h.free hw
        obtain ⟨t', hruns, h', hfreed', hcount'⟩ := h1.runs
        refine ⟨t', .step ⟨hgo, hstep⟩ hruns, ?_, ?_, ?_⟩
        · simpa [markedAddrs, hw] using h'
        · simp [hfreed', hfreed, whiteAddrs, hw]
        · rw [hcount', hcount, List.countP_cons_of_pos (by simpa using hw)]
          omega
      · obtain ⟨t1, hstep, h1, hfreed, hcount⟩ := h.keep hw
        obtain ⟨t', hruns, h', hfreed', hcount'⟩ := h1.runs
        refine ⟨t', .step ⟨hgo, hstep⟩ hruns, ?_, ?_, ?_⟩
        · simpa [markedAddrs, hw] using h'
        · simp [hfreed', hfreed, whiteAddrs, hw]
        · rw [hcount', hcount, List.countP_cons_of_neg (by simpa using hw)]

theorem gcEnd_addrs (s : GcState) :
    (gcEnd s).objects.map (·.addr) = markedAddrs s.objects := by
  rw [gcEnd, List.map_map]
  rfl

/-- **The sweep.** In a memory that holds the object list of `s`, the loop of
`end` ends without touching freed memory, leaves the object list of `gcEnd s`,
and has freed the white objects, once each. -/
theorem sweep_runs {s : GcState} {m : Headers} (hm : Listed s m)
    (hs : (s.objects.map (·.addr)).Nodup) :
    ∃ t, sweep.Runs m.sweepStart (.ok t) ∧ Listed (gcEnd s) t.toHeaders
      ∧ t.freed = m.freed ++ whiteAddrs s.objects := by
  obtain ⟨t, hruns, h, hfreed, hcount⟩ := (hm.sweeping hs).runs
  refine ⟨t, hruns, ⟨?_, fun o ho => ?_, ?_, fun o ho => ?_⟩, hfreed⟩
  · rw [gcEnd_addrs]
    have hbefore := h.before
    rwa [show t.obj = 0 from h.after] at hbefore
  · have hkept := gcEnd_addrs s ▸ List.mem_map_of_mem (f := GcObject.addr) ho
    rw [h.white _ hkept]
    obtain ⟨p, -, rfl⟩ := List.mem_map.mp ho
    rfl
  · rw [hcount]
    exact congrArg (· - _) hm.count
  · have hkept := gcEnd_addrs s ▸ List.mem_map_of_mem (f := GcObject.addr) ho
    exact h.freed _ (List.mem_append_left _ hkept)

end Saurus
