import Saurus.Format.Accept
import Saurus.Intern
import Saurus.Vm.Step

/-!
# Loading a program

`su_load`: verify the header, read the outermost prototype, make a closure of
it and push that.

`verify_header` does not look at what `buffer_read` returns. When the input
ends inside the header its local arrays keep, in part, the bytes that happened
to be there (`HeaderJunk`), and the check goes on with them; the input is used
up by then, so the first read of the prototype fails.

Prototypes are not among the objects of a `World`, so `gc_insert_object` on
the outermost one leaves no trace here. The memory for the tables of a
prototype is there: `su_allocate` of a count that is read raises no "Out of
memory!", however large the count is.
-/

namespace Saurus

open Basis Basis.Codec

/-- `VERSION_MAJOR` -/
def versionMajor : Byte := 0#8

/-- `VERSION_MINOR` -/
def versionMinor : Byte := 0#8

/-- `"\x1bsuc"` -/
def signature : List Byte := [0x1b#8, 0x73#8, 0x75#8, 0x63#8]

/-- A header with no flags. -/
def headerBytes (major minor : Byte) : List Byte := signature ++ [major, minor, 0#8, 0#8]

namespace Load

/-- What the locals of `verify_header` hold before they are read into. -/
structure HeaderJunk where
  sign : List Byte
  version : List Byte
  flags : List Byte
  sign_length : sign.length = 4
  version_length : version.length = 2
  flags_length : flags.length = 2

/-- What a `buffer_read` that fails has copied, and what it leaves. -/
def bufferDrain : List (List Byte) → List Byte → List Byte × ReaderBuffer
  | [], data => (data, ⟨[], []⟩)
  | chunk :: chunks, data =>
      if chunk = [] then (data, ⟨[], chunks⟩)
      else ((data ++ (bufferDrain chunks chunk).1), (bufferDrain chunks chunk).2)

/-- `buffer_read(s, buffer, dest, sizeof(dest))`, whatever it returns; `dest`
holds `junk` before. -/
def readOver (junk : List Byte) (st : ReaderBuffer) : List Byte × ReaderBuffer :=
  match bufferRead junk.length st with
  | .ok r => r
  | .error _ =>
      let (got, st') := bufferDrain st.chunks st.data
      (got ++ junk.drop got.length, st')

/-- `verify_header`; the answer is whether it returns 0. -/
def verifyHeader (junk : HeaderJunk) (st : ReaderBuffer) : Bool × ReaderBuffer :=
  let (sign, st) := readOver junk.sign st
  if sign ≠ signature then (false, st)
  else
    let (version, st) := readOver junk.version st
    if version[0]? ≠ some versionMajor ∧ version[1]? ≠ some versionMinor then (false, st)
    else
      let (flags, st) := readOver junk.flags st
      (decide (leNat flags = 0), st)

/-- More levels than there are bytes to come. -/
def levels (st : ReaderBuffer) : Nat := (st.data ++ st.chunks.flatten).length + 1

end Load

/-- `lambda(s, prot, -1)` and `return 0` at the end of `su_load`. -/
def pushLoaded (h : Host) (s : Vm) (prot : Proto) : Outcome (Int × Vm) := do
  let (w, f) ← lambda h.junk s.world prot (-1) s.capture
  let s ← { s with world := w }.pushValue f
  pure (0, s)

/-- `su_load`, with what it returns. -/
def suLoad (h : Host) (junk : Load.HeaderJunk) (st : ReaderBuffer) (s : Vm) :
    Outcome (Int × Vm) :=
  match Load.verifyHeader junk st with
  | (false, _) => pure (-1, s)
  | (true, st') =>
      match readPrototype (Load.levels st) st' with
      | .error .assert => .fault
      | .error _ => pure (-1, s)
      | .ok (prot, _) => pushLoaded h s prot

/-! ## What is promised -/

/-- One value has been pushed: a function made of `p` that takes any number of
arguments. Only the world has changed besides. -/
def Vm.PushesFunction (s s' : Vm) (p : Proto) : Prop :=
  ∃ w f fn, s' = { s with
      world := w, stack := Function.update s.stack s.stackTop f, stackTop := s.stackTop + 1 }
    ∧ f.type = .function ∧ functionAt w f = .ok fn ∧ fn.prot = p ∧ fn.narg = -1

/-- The input is a program: a header of this version and a complete
well-formed prototype. -/
def IsProgram (bs : List Byte) (p : Proto) : Prop :=
  p.WellFormed ∧ headerBytes versionMajor versionMinor ++ p.bytes <+: bs

/-- `o` is what `su_load` is to do on `bs`. -/
structure LoadsExactly (s : Vm) (bs : List Byte) (o : Outcome (Int × Vm)) : Prop where
  accepts : ∀ p, IsProgram bs p → ∃ s', o = .ok (0, s') ∧ s.PushesFunction s' p
  rejects : (∀ p, ¬ IsProgram bs p) → o = .ok (-1, s)

/-- Whether `lambda` finds a slot to capture. -/
def Vm.CanCapture (s : Vm) (u : Upvalue) : Prop :=
  u.lv.toNat ≤ s.frameTop ∧ s.frameTop - u.lv.toNat < maxCalls
    ∧ (s.frames (s.frameTop - u.lv.toNat)).stackTop + u.idx.toNat + 1 < stackSize

/-- Inputs that reach none of the gaps: with one number of the version wrong
nothing well-formed follows, no constant tag is unknown, and a program finds
room for its closure and what that captures. -/
def LoadsSafely (s : Vm) (bs : List Byte) : Prop :=
  ∀ major minor body, bs = headerBytes major minor ++ body →
    (major = versionMajor ∨ minor = versionMinor) →
    (∀ pre, UnknownTag pre → ¬ pre <+: body) ∧
    ∀ p : Proto, p.WellFormed → p.bytes <+: body →
      major = versionMajor ∧ minor = versionMinor
        ∧ s.stackTop < stackSize ∧ ∀ u ∈ p.upvalues, s.CanCapture u

/-! ## The header -/

namespace Load

theorem bufferDrain_holds : ∀ {chunks : List (List Byte)} {data : List Byte},
    (∀ c ∈ chunks, c ≠ []) → Holds (bufferDrain chunks data).2 []
  | [], data, _ => ⟨rfl, fun _ hc => absurd hc List.not_mem_nil⟩
  | chunk :: chunks, data, hne => by
      rw [bufferDrain, if_neg (hne chunk List.mem_cons_self)]
      exact bufferDrain_holds fun c hc => hne c (List.mem_cons_of_mem _ hc)

/-- The input moves on by the size of the array, as far as there is any. -/
theorem readOver_holds {st : ReaderBuffer} {bs : List Byte} (hst : Holds st bs)
    (junk : List Byte) : Holds (readOver junk st).2 (bs.drop junk.length)
      ∧ (junk.length ≤ bs.length → (readOver junk st).1 = bs.take junk.length) := by
  by_cases hle : junk.length ≤ bs.length
  · have hlen : (bs.take junk.length).length = junk.length := by rw [List.length_take]; omega
    have hR : Holds st (bs.take junk.length ++ bs.drop junk.length) :=
      (List.take_append_drop junk.length bs).symm ▸ hst
    have hreads := bufferRead_reads (bs.take junk.length)
    rw [hlen] at hreads
    obtain ⟨st', hr, hst'⟩ := hreads st _ hR
    simp only [readOver, hr]
    exact ⟨hst', fun _ => trivial⟩
  · have hshort : bufferRead junk.length st = .error .eof :=
      bufferFill_short (by rw [hst.1]; omega)
    simp only [readOver, hshort]
    rw [List.drop_of_length_le (by omega)]
    exact ⟨bufferDrain_holds hst.2, fun h => absurd h hle⟩

/-- A header of which one number of the version is right is verified. -/
theorem verifyHeader_header {st : ReaderBuffer} {major minor : Byte} {body : List Byte}
    (hst : Holds st (headerBytes major minor ++ body))
    (hv : major = versionMajor ∨ minor = versionMinor) (junk : HeaderJunk) :
    ∃ st', verifyHeader junk st = (true, st') ∧ Holds st' body := by
  obtain ⟨h1, hsign⟩ := readOver_holds hst junk.sign
  obtain ⟨h2, hversion⟩ := readOver_holds h1 junk.version
  obtain ⟨h3, hflags⟩ := readOver_holds h2 junk.flags
  rw [junk.sign_length] at h1 h2 h3 hsign hversion hflags
  rw [junk.version_length] at h2 h3 hversion hflags
  rw [junk.flags_length] at h3 hflags
  have hbs : headerBytes major minor ++ body
      = 0x1b#8 :: 0x73#8 :: 0x75#8 :: 0x63#8 :: major :: minor :: 0#8 :: 0#8 :: body := rfl
  rw [hbs] at h1 h2 h3 hsign hversion hflags
  have hsign' := hsign (by simp)
  have hversion' := hversion (by simp)
  have hflags' := hflags (by simp)
  refine ⟨_, ?_, h3⟩
  simp only [verifyHeader, hsign', hversion', hflags']
  rw [if_neg (by simp [signature]), if_neg (by simpa using fun h => hv.resolve_left h)]
  rfl

theorem leNat_two {a b : Byte} (h : leNat [a, b] = 0) : a = 0#8 ∧ b = 0#8 := by
  simp only [leNat] at h
  exact ⟨BitVec.eq_of_toNat_eq (by simp; omega), BitVec.eq_of_toNat_eq (by simp; omega)⟩

/-- What is verified is such a header, if the input is long enough for one; and
then the input is at its ninth byte. -/
theorem verifyHeader_true {st st' : ReaderBuffer} {bs : List Byte} {junk : HeaderJunk}
    (hst : Holds st bs) (h : verifyHeader junk st = (true, st')) :
    Holds st' (bs.drop 8) ∧ (8 ≤ bs.length → ∃ major minor,
      (major = versionMajor ∨ minor = versionMinor)
        ∧ bs = headerBytes major minor ++ bs.drop 8) := by
  obtain ⟨h1, hsign⟩ := readOver_holds hst junk.sign
  obtain ⟨h2, hversion⟩ := readOver_holds h1 junk.version
  obtain ⟨h3, hflags⟩ := readOver_holds h2 junk.flags
  rw [junk.sign_length] at h1 h2 h3 hsign hversion hflags
  rw [junk.version_length] at h2 h3 hversion hflags
  rw [junk.flags_length] at h3 hflags
  rw [List.drop_drop] at h2 h3 hflags
  rw [List.drop_drop] at h3
  unfold verifyHeader at h
  dsimp only at h
  split at h
  · cases h
  · rename_i hs
    split at h
    · cases h
    · rename_i hv
      obtain ⟨hf, rfl⟩ := Prod.mk.inj h
      refine ⟨h3, fun hlen => ?_⟩
      obtain ⟨b0, b1, b2, b3, b4, b5, b6, b7, body, rfl⟩ : ∃ b0 b1 b2 b3 b4 b5 b6 b7 body,
          bs = b0 :: b1 :: b2 :: b3 :: b4 :: b5 :: b6 :: b7 :: body := by
        rcases bs with _ | ⟨b0, _ | ⟨b1, _ | ⟨b2, _ | ⟨b3, _ | ⟨b4, _ | ⟨b5, _ | ⟨b6,
          _ | ⟨b7, body⟩⟩⟩⟩⟩⟩⟩⟩
        all_goals first
          | exact ⟨b0, b1, b2, b3, b4, b5, b6, b7, body, rfl⟩
          | exact absurd hlen (by simp)
      rw [hsign (by simp)] at hs
      rw [hversion (by simp)] at hv
      rw [hflags (by simp), decide_eq_true_eq] at hf
      obtain ⟨rfl, rfl⟩ := leNat_two hf
      have hs' := not_not.mp hs
      simp only [List.take_succ_cons, List.take_zero, signature, List.cons.injEq] at hs'
      obtain ⟨rfl, rfl, rfl, rfl, -⟩ := hs'
      refine ⟨b4, b5, ?_, rfl⟩
      by_contra hno
      obtain ⟨hmajor, hminor⟩ := not_or.mp hno
      exact hv (by simpa using ⟨hmajor, hminor⟩)

end Load

/-! ## The closure -/

theorem InternRoom_junk {w : World} {n : Nat} (h : w.InternRoom n) (junk : Nat → BitVec 64) :
    (drawJunk junk w).1.InternRoom n := by
  obtain ⟨⟨f, T, hi⟩, hstrings, hobjects⟩ := h
  exact ⟨⟨f, T, hi.rep, hi.lookup, hi.keys, hi.hashed, hi.object, hi.addressable⟩, hstrings,
    hobjects⟩

theorem createValue_progress {w : World} {n : Nat} (h : w.InternRoom (n + 1))
    (junk : Nat → BitVec 64) (v : ProtoConst) :
    ∃ w' x, createValue junk w v = .ok (w', x) ∧ w'.InternRoom n := by
  have hn := h.mono (Nat.le_succ n)
  cases v with
  | string str =>
      obtain ⟨w', a, hrun, h'⟩ := stringFromDb_progress h str
      refine ⟨w', objValue .string a, ?_, h'⟩
      rw [createValue, internString, hrun]
      rfl
  | number num => exact ⟨w, _, rfl, hn⟩
  | true => exact ⟨_, _, rfl, InternRoom_junk hn junk⟩
  | false => exact ⟨_, _, rfl, InternRoom_junk hn junk⟩
  | nil => exact ⟨_, _, rfl, InternRoom_junk hn junk⟩

theorem createValues_progress (junk : Nat → BitVec 64) : ∀ {vs : List ProtoConst} {w : World}
    {n : Nat}, w.InternRoom (n + vs.length) →
    ∃ w' xs, createValues junk w vs = .ok (w', xs) ∧ w'.InternRoom n
  | [], w, _, h => ⟨w, [], rfl, h⟩
  | v :: vs, w, n, h => by
      obtain ⟨w1, x, hx, h1⟩ := createValue_progress (n := n + vs.length) h junk v
      obtain ⟨w2, xs, hxs, h2⟩ := createValues_progress junk h1
      refine ⟨w2, x :: xs, ?_, h2⟩
      simp only [createValues, hx, hxs, Outcome.ok_bind, Outcome.pure_eq]

theorem capture_iff {s : Vm} {u : Upvalue} :
    (∃ v, s.capture u = .ok v) ↔ s.CanCapture u := by
  rw [Vm.CanCapture, Vm.capture, Vm.slot]
  constructor
  · rintro ⟨v, h⟩
    obtain ⟨_, hreq, h⟩ := Outcome.bind_eq_ok.mp h
    obtain ⟨_, hslot, -⟩ := Outcome.bind_eq_ok.mp h
    rw [Outcome.require_eq_ok, decide_eq_true_eq] at hreq hslot
    exact ⟨hreq.1, hreq.2, hslot⟩
  · rintro ⟨hle, hlt, hslot⟩
    rw [decide_eq_true ⟨hle, hlt⟩, decide_eq_true hslot]
    exact ⟨_, rfl⟩

theorem captureAll_iff {s : Vm} : ∀ {us : List Upvalue},
    (∃ vs, captureAll s.capture us = .ok vs) ↔ ∀ u ∈ us, s.CanCapture u
  | [] => ⟨fun _ _ h => absurd h List.not_mem_nil, fun _ => ⟨[], rfl⟩⟩
  | u :: us => by
      rw [List.forall_mem_cons, ← capture_iff, ← captureAll_iff]
      constructor
      · rintro ⟨vs, h⟩
        obtain ⟨v, hv, h⟩ := Outcome.bind_eq_ok.mp h
        obtain ⟨rest, hrest, -⟩ := Outcome.bind_eq_ok.mp h
        exact ⟨⟨v, hv⟩, rest, hrest⟩
      · rintro ⟨⟨v, hv⟩, vs, hvs⟩
        refine ⟨v :: vs, ?_⟩
        rw [captureAll, hv, Outcome.ok_bind, hvs]
        rfl

theorem pushLoaded_inv {h : Host} {s : Vm} {p : Proto} {r : Int × Vm}
    (hr : pushLoaded h s p = .ok r) :
    r.1 = 0 ∧ s.stackTop < stackSize ∧ ∀ u ∈ p.upvalues, s.CanCapture u := by
  obtain ⟨⟨w, f⟩, hl, hr⟩ := Outcome.bind_eq_ok.mp hr
  obtain ⟨s', hpush, hr⟩ := Outcome.bind_eq_ok.mp hr
  cases hr
  obtain ⟨⟨w1, vs⟩, -, hl⟩ := Outcome.bind_eq_ok.mp hl
  obtain ⟨us, hus, -⟩ := Outcome.bind_eq_ok.mp hl
  obtain ⟨_, hroom, -⟩ := Outcome.bind_eq_ok.mp hpush
  rw [Outcome.check_eq_ok, decide_eq_true_eq] at hroom
  exact ⟨rfl, hroom, captureAll_iff.mp ⟨us, hus⟩⟩

theorem pushLoaded_ok {h : Host} {s : Vm} {p : Proto}
    (hw : s.world.InternRoom (1 + p.constants.length)) (htop : s.stackTop < stackSize)
    (hup : ∀ u ∈ p.upvalues, s.CanCapture u) :
    ∃ s', pushLoaded h s p = .ok (0, s') ∧ s.PushesFunction s' p := by
  obtain ⟨w1, vs, hvs, h1⟩ := createValues_progress h.junk hw
  obtain ⟨us, hus⟩ := captureAll_iff.mpr hup
  let fn : FunctionObj := ⟨-1, p, vs, us⟩
  let w2 : World := { w1 with objects := w1.objects ++ [.function fn] }
  let f : Value := objValue .function (w1.objects.length + 1)
  have halloc : w1.alloc (.function fn) = .ok (w2, w1.objects.length + 1) := by
    rw [World.alloc, if_pos h1.objects]
  have hlambda : lambda h.junk s.world p (-1) s.capture = .ok (w2, f) := by
    rw [lambda, hvs, Outcome.ok_bind]
    change (captureAll s.capture p.upvalues >>= _) = _
    rw [hus, Outcome.ok_bind, halloc]
    rfl
  have haddr : f.addr = w1.objects.length + 1 := addr_objValue h1.objects
  refine ⟨{ s with
    world := w2, stack := Function.update s.stack s.stackTop f, stackTop := s.stackTop + 1 },
    ?_, w2, f, fn, rfl, rfl, ?_, rfl, rfl⟩
  · rw [pushLoaded, hlambda, Outcome.ok_bind]
    change (({ s with world := w2 } : Vm).pushValue f >>= _) = _
    rw [Vm.pushValue, Vm.pushFrom, decide_eq_true htop]
    rfl
  · rw [functionAt, haddr, object_alloc_self halloc]
    rfl

/-! ## The whole -/

theorem headerBytes_inj {a b c d : Byte} {xs ys : List Byte}
    (h : headerBytes a b ++ xs = headerBytes c d ++ ys) : a = c ∧ b = d ∧ xs = ys := by
  simp only [headerBytes, signature, List.cons_append, List.nil_append, List.cons.injEq] at h
  exact ⟨h.2.2.2.2.1, h.2.2.2.2.2.1, h.2.2.2.2.2.2.2.2⟩

theorem isProgram_iff {major minor : Byte} {body : List Byte} {p : Proto} :
    IsProgram (headerBytes major minor ++ body) p ↔
      major = versionMajor ∧ minor = versionMinor ∧ p.WellFormed ∧ p.bytes <+: body := by
  constructor
  · rintro ⟨hp, tail, heq⟩
    rw [List.append_assoc] at heq
    obtain ⟨rfl, rfl, rfl⟩ := headerBytes_inj heq
    exact ⟨rfl, rfl, hp, tail, rfl⟩
  · rintro ⟨rfl, rfl, hp, tail, rfl⟩
    exact ⟨hp, tail, List.append_assoc ..⟩

/-- There is no program where no header is verified. -/
theorem not_isProgram {bs : List Byte}
    (h : ∀ major minor body, bs = headerBytes major minor ++ body →
      ¬ (major = versionMajor ∨ minor = versionMinor)) (p : Proto) : ¬ IsProgram bs p := by
  rintro ⟨-, tail, rfl⟩
  exact h _ _ _ (List.append_assoc ..) (Or.inl rfl)

/-- Giving up is right where there is no program. -/
theorem loadsExactly_of_reject {s : Vm} {bs : List Byte} (h : ∀ p, ¬ IsProgram bs p) :
    LoadsExactly s bs (.ok (-1, s)) :=
  ⟨fun p hp => absurd hp (h p), fun _ => rfl⟩

theorem wellFormed_levels {p : Proto} (hp : p.WellFormed) {body : List Byte}
    (hpre : p.bytes <+: body) {n : Nat} (hn : body.length < n) :
    p.WellFormed ∧ p.depth ≤ n := by
  have hdepth := depth_le_length p
  have hlen := hpre.length_le
  exact ⟨hp, by omega⟩

/-- What the reader makes of the bytes behind a header. -/
theorem readPrototype_cases {st : ReaderBuffer} {body : List Byte} (hst : Holds st body) {n : Nat}
    (hn : body.length < n) :
    (readPrototype n st = .error .eof ∧ (∀ p : Proto, p.WellFormed → ¬ p.bytes <+: body)
      ∧ ∀ pre, UnknownTag pre → ¬ pre <+: body)
    ∨ (readPrototype n st = .error .assert ∧ (∀ p : Proto, p.WellFormed → ¬ p.bytes <+: body)
      ∧ ∃ pre, UnknownTag pre ∧ pre <+: body)
    ∨ ∃ p st', readPrototype n st = .ok (p, st') ∧ p.WellFormed ∧ p.bytes <+: body
      ∧ (∀ q : Proto, q.WellFormed → q.bytes <+: body → q = p)
      ∧ ∀ pre, UnknownTag pre → ¬ pre <+: body := by
  have hdec := readPrototype_decodes n
  have hread : ∀ q : Proto, q.WellFormed → q.bytes <+: body →
      ∃ st', readPrototype n st = .ok (q, st') := by
    rintro q hq ⟨rest, rfl⟩
    obtain ⟨st', h, -⟩ := hdec.reads q (wellFormed_levels hq ⟨rest, rfl⟩ hn) st rest hst
    exact ⟨st', h⟩
  have hfail : ∀ pre, UnknownTag pre → pre <+: body → readPrototype n st = .error .assert := by
    rintro pre hbad ⟨rest, rfl⟩
    have hlen : pre.length < n := by rw [List.length_append] at hn; omega
    exact hdec.fails .assert pre (hbad.badProto hlen) st rest hst
  cases hr : readPrototype n st with
  | error e =>
      have hnone : ∀ p : Proto, p.WellFormed → ¬ p.bytes <+: body := by
        intro p hp hpre
        obtain ⟨st', h⟩ := hread p hp hpre
        rw [hr] at h
        cases h
      rcases hdec.error hst hr with rfl | ⟨pre, hbad, hpre⟩
      · refine Or.inl ⟨rfl, hnone, fun pre hbad hpre => ?_⟩
        have h := hfail pre hbad hpre
        rw [hr] at h
        cases h
      · have hlen := hpre.length_le
        rcases hbad.kind with rfl | rfl
        · exact Or.inr (Or.inl ⟨rfl, hnone, pre, hbad.unknownTag, hpre⟩)
        · have hle := hbad.le_length
          omega
  | ok r =>
      obtain ⟨p, st'⟩ := r
      obtain ⟨⟨hp, -⟩, rest, rfl, -⟩ := hdec.sound hst hr
      refine Or.inr (Or.inr ⟨p, st', rfl, hp, ⟨rest, rfl⟩, fun q hq hpre => ?_,
        fun pre hbad hpre => ?_⟩)
      · obtain ⟨st2, h⟩ := hread q hq hpre
        rw [hr] at h
        cases h
        rfl
      · have h := hfail pre hbad hpre
        rw [hr] at h
        cases h

theorem length_constants_lt (p : Proto) : 1 + p.constants.length ≤ p.bytes.length := by
  have hsum : ∀ vs : List ProtoConst, vs.length ≤ (vs.flatMap ProtoConst.bytes).length := by
    intro vs
    induction vs with
    | nil => exact Nat.le_refl 0
    | cons v vs ih =>
        rw [List.flatMap_cons, List.length_append, ProtoConst.bytes, List.length_append,
          length_leBytes, List.length_cons]
        omega
  have hinst := length_tableBytes Instruction.bytes p.inst
  have hconst := hsum p.constants
  rw [p.bytes_eq]
  simp only [List.length_append, tableBytes] at hinst ⊢
  omega

theorem suLoad_of_false {h : Host} {junk : Load.HeaderJunk} {st st' : ReaderBuffer} {s : Vm}
    (hv : Load.verifyHeader junk st = (false, st')) : suLoad h junk st s = .ok (-1, s) := by
  simp only [suLoad, hv, Outcome.pure_eq]

theorem suLoad_of_eof {h : Host} {junk : Load.HeaderJunk} {st st' : ReaderBuffer} {s : Vm}
    (hv : Load.verifyHeader junk st = (true, st'))
    (hr : readPrototype (Load.levels st) st' = .error .eof) :
    suLoad h junk st s = .ok (-1, s) := by
  simp only [suLoad, hv, hr, Outcome.pure_eq]

theorem suLoad_of_assert {h : Host} {junk : Load.HeaderJunk} {st st' : ReaderBuffer} {s : Vm}
    (hv : Load.verifyHeader junk st = (true, st'))
    (hr : readPrototype (Load.levels st) st' = .error .assert) :
    suLoad h junk st s = .fault := by
  simp only [suLoad, hv, hr]

theorem suLoad_of_ok {h : Host} {junk : Load.HeaderJunk} {st st' st2 : ReaderBuffer} {s : Vm}
    {p : Proto} (hv : Load.verifyHeader junk st = (true, st'))
    (hr : readPrototype (Load.levels st) st' = .ok (p, st2)) :
    suLoad h junk st s = pushLoaded h s p := by
  simp only [suLoad, hv, hr]

/-- The input behind a header that is verified, when it is a program or looks
like one but for the version. -/
theorem loadsExactly_pushLoaded {h : Host} {s : Vm} {major minor : Byte} {body : List Byte}
    {p : Proto} (hw : s.world.InternRoom (1 + p.constants.length)) (hp : p.WellFormed)
    (hpre : p.bytes <+: body) (huniq : ∀ q : Proto, q.WellFormed → q.bytes <+: body → q = p) :
    LoadsExactly s (headerBytes major minor ++ body) (pushLoaded h s p) ↔
      major = versionMajor ∧ minor = versionMinor
        ∧ s.stackTop < stackSize ∧ ∀ u ∈ p.upvalues, s.CanCapture u := by
  constructor
  · intro hex
    have hres : ∃ r, pushLoaded h s p = .ok r ∧ (r.1 = 0 → ∃ q,
        IsProgram (headerBytes major minor ++ body) q) := by
      by_cases hprog : ∃ q, IsProgram (headerBytes major minor ++ body) q
      · obtain ⟨q, hq⟩ := hprog
        obtain ⟨s', hs', -⟩ := hex.accepts q hq
        exact ⟨_, hs', fun _ => ⟨q, hq⟩⟩
      · exact ⟨_, hex.rejects (not_exists.mp hprog),
          fun h => absurd (show (-1 : Int) = 0 from h) (by decide)⟩
    obtain ⟨r, hr, hprog⟩ := hres
    obtain ⟨h0, htop, hup⟩ := pushLoaded_inv hr
    obtain ⟨q, hq⟩ := hprog h0
    obtain ⟨hmajor, hminor, -⟩ := isProgram_iff.mp hq
    exact ⟨hmajor, hminor, htop, hup⟩
  · rintro ⟨hmajor, hminor, htop, hup⟩
    refine ⟨fun q hq => ?_, fun hno => ?_⟩
    · obtain ⟨-, -, hq, hqpre⟩ := isProgram_iff.mp hq
      rw [huniq q hq hqpre]
      exact pushLoaded_ok hw htop hup
    · exact absurd (isProgram_iff.mpr ⟨hmajor, hminor, hp, hpre⟩) (hno p)

/-- No header is verified, or none that is complete. -/
theorem suLoad_no_header {h : Host} {junk : Load.HeaderJunk} {st : ReaderBuffer}
    {bs : List Byte} {s : Vm} (hst : Holds st bs)
    (hno : ∀ major minor body, bs = headerBytes major minor ++ body →
      ¬ (major = versionMajor ∨ minor = versionMinor)) :
    suLoad h junk st s = .ok (-1, s) := by
  obtain ⟨b, st', hv⟩ : ∃ b st', Load.verifyHeader junk st = (b, st') := ⟨_, _, rfl⟩
  cases b with
  | false => exact suLoad_of_false hv
  | true =>
      obtain ⟨hst', hheader⟩ := Load.verifyHeader_true hst hv
      have hshort : ¬ 8 ≤ bs.length := fun hlen => by
        obtain ⟨major, minor, hversion, hbs⟩ := hheader hlen
        exact hno major minor _ hbs hversion
      rw [List.drop_of_length_le (by omega)] at hst'
      rcases readPrototype_cases hst' (Nat.succ_pos _) with
        ⟨hr, -⟩ | ⟨-, -, pre, htag, hpre⟩ | ⟨p, -, -, -, hpre, -⟩
      · exact suLoad_of_eof hv hr
      · have h4 := htag.length
        have hle := hpre.length_le
        rw [List.length_nil] at hle
        omega
      · have h1 := length_constants_lt p
        have hle := hpre.length_le
        rw [List.length_nil] at hle
        omega

/-- A header is verified, and `body` follows it. -/
theorem suLoad_header {h : Host} {junk : Load.HeaderJunk} {st : ReaderBuffer}
    {major minor : Byte} {body : List Byte} {s : Vm}
    (hst : Holds st (headerBytes major minor ++ body))
    (hversion : major = versionMajor ∨ minor = versionMinor)
    (hw : s.world.InternRoom body.length) :
    LoadsExactly s (headerBytes major minor ++ body) (suLoad h junk st s) ↔
      (∀ pre, UnknownTag pre → ¬ pre <+: body) ∧
      ∀ p : Proto, p.WellFormed → p.bytes <+: body → major = versionMajor
        ∧ minor = versionMinor ∧ s.stackTop < stackSize ∧ ∀ u ∈ p.upvalues, s.CanCapture u := by
  obtain ⟨st', hv, hst'⟩ := Load.verifyHeader_header hst hversion junk
  have hn : body.length < Load.levels st := by
    rw [Load.levels, hst.1, List.length_append]
    omega
  rcases readPrototype_cases hst' hn with ⟨hr, hnone, htag⟩ | ⟨hr, hnone, pre, htag, hpre⟩ |
    ⟨p, st2, hr, hp, hpre, huniq, htag⟩
  · rw [suLoad_of_eof hv hr]
    refine ⟨fun _ => ⟨htag, fun p hp hpre => absurd hpre (hnone p hp)⟩,
      fun _ => loadsExactly_of_reject fun p hp => ?_⟩
    obtain ⟨-, -, hp, hpre⟩ := isProgram_iff.mp hp
    exact hnone p hp hpre
  · rw [suLoad_of_assert hv hr]
    refine ⟨fun hex => ?_, fun hs => absurd hpre (hs.1 pre htag)⟩
    have hok := hex.rejects fun p hp => by
      obtain ⟨-, -, hp, hpre⟩ := isProgram_iff.mp hp
      exact hnone p hp hpre
    cases hok
  · have hroom : s.world.InternRoom (1 + p.constants.length) :=
      hw.mono (Nat.le_trans (length_constants_lt p) hpre.length_le)
    rw [suLoad_of_ok hv hr, loadsExactly_pushLoaded hroom hp hpre huniq]
    refine ⟨fun hs => ⟨htag, fun q hq hqpre => ?_⟩, fun hs => hs.2 p hp hpre⟩
    rw [huniq q hq hqpre]
    exact hs

/-- **What `su_load` accepts.** For every input, however it is chunked, and
whatever the locals of `verify_header` hold, `su_load` pushes one function for
a program and returns -1 with nothing changed for anything else, if and only
if the input is safe to load. -/
theorem su_load_exact_iff {h : Host} {junk : Load.HeaderJunk} {st : ReaderBuffer}
    {bs : List Byte} {s : Vm} (hst : Holds st bs) (hw : s.world.InternRoom bs.length) :
    LoadsExactly s bs (suLoad h junk st s) ↔ LoadsSafely s bs := by
  by_cases hheader : ∃ major minor body, bs = headerBytes major minor ++ body ∧
      (major = versionMajor ∨ minor = versionMinor)
  · obtain ⟨major, minor, body, rfl, hversion⟩ := hheader
    have hroom := hw.mono (by rw [List.length_append]; omega : body.length ≤ _)
    rw [suLoad_header hst hversion hroom]
    refine ⟨fun hs major' minor' body' hbs _ => ?_, fun hs => hs _ _ _ rfl hversion⟩
    obtain ⟨rfl, rfl, rfl⟩ := headerBytes_inj hbs
    exact hs
  · have hno : ∀ major minor body, bs = headerBytes major minor ++ body →
        ¬ (major = versionMajor ∨ minor = versionMinor) := fun major minor body hbs hversion =>
      hheader ⟨major, minor, body, hbs, hversion⟩
    rw [suLoad_no_header hst hno]
    exact ⟨fun _ major minor body hbs hversion => absurd hversion (hno _ _ _ hbs),
      fun _ => loadsExactly_of_reject (not_isProgram hno)⟩

/-- A program is safe to load where its closure finds room. -/
theorem loadsSafely_of_program {s : Vm} {p : Proto} {rest : List Byte} (hp : p.WellFormed)
    (htop : s.stackTop < stackSize) (hup : ∀ u ∈ p.upvalues, s.CanCapture u) :
    LoadsSafely s (headerBytes versionMajor versionMinor ++ (p.bytes ++ rest)) := by
  intro major minor body hbs _
  obtain ⟨rfl, rfl, rfl⟩ := headerBytes_inj hbs
  have hst : Holds ⟨p.bytes ++ rest, []⟩ (p.bytes ++ rest) := ⟨by simp, by simp⟩
  have hpre : p.bytes <+: p.bytes ++ rest := ⟨rest, rfl⟩
  rcases readPrototype_cases hst (Nat.lt_succ_self _) with
    ⟨-, hnone, -⟩ | ⟨-, hnone, -⟩ | ⟨q, -, -, -, -, huniq, htag⟩
  · exact absurd hpre (hnone p hp)
  · exact absurd hpre (hnone p hp)
  · refine ⟨htag, fun q' hq' hpre' => ⟨rfl, rfl, htop, ?_⟩⟩
    rw [huniq q' hq' hpre', ← huniq p hp hpre]
    exact hup

/-! ## A file of another version -/

/-- A prototype with nothing in it. -/
def emptyProto : Proto := .mk [] [] [] [] [] []

/-- Just started, with nothing interned. -/
def emptyVm : Vm where
  world := emptyWorld
  stack := fun _ => ⟨.nil, 0#64⟩
  stackTop := 0
  frames := fun _ => ⟨⟨0, emptyProto, [], []⟩, 0, 0⟩
  frameTop := 0
  func := ⟨0, emptyProto, [], []⟩
  pc := 0

theorem internRoom_empty {n : Nat} (hn : n < 2 ^ 31) : emptyWorld.InternRoom n :=
  ⟨⟨_, _, interning_start rfl⟩, by change (0 : Int) + n < 2 ^ 31; omega,
    by change 0 + n < 2 ^ 64; omega⟩

/-- Nothing on the stack of `verify_header`. -/
def zeroJunk : Load.HeaderJunk :=
  ⟨[0#8, 0#8, 0#8, 0#8], [0#8, 0#8], [0#8, 0#8], rfl, rfl, rfl⟩

theorem emptyProto_wellFormed : emptyProto.WellFormed := by
  simp [emptyProto, Proto.WellFormed, Proto.WellFormedList]

/-- A program with constants of every kind and a function in it that has a
constant and captures a variable. -/
def nestedProto : Proto :=
  .mk [⟨21#8, 0#8, 1#16⟩, ⟨0#8, 0#8, 0#16⟩, ⟨19#8, 1#8, 0#16⟩, ⟨18#8, 0#8, 0#16⟩]
    [.string [0x78#8, 0x79#8, 0#8], .number 7#64, .nil, .true, .false] []
    [.mk [⟨24#8, 1#8, 0#16⟩, ⟨18#8, 0#8, 0#16⟩] [.string [0x7a#8, 0#8]] [⟨1#16, 0#16⟩] [] []
      [2#32, 2#32]]
    [0x3f#8, 0#8] [1#32, 1#32, 1#32, 1#32]

/-- It is loaded, delivered in two chunks with more input behind it. -/
theorem su_load_exact_nested :
    let bs := headerBytes versionMajor versionMinor ++ (nestedProto.bytes ++ [1#8])
    LoadsExactly emptyVm bs (suLoad idleHost zeroJunk ⟨[], [bs.take 60, bs.drop 60]⟩ emptyVm)
      ∧ ∃ s', suLoad idleHost zeroJunk ⟨[], [bs.take 60, bs.drop 60]⟩ emptyVm = .ok (0, s')
        ∧ emptyVm.PushesFunction s' nestedProto := by
  intro bs
  have hwf : nestedProto.WellFormed := by
    simp [nestedProto, Proto.WellFormed, Proto.WellFormedList, ProtoConst.Sized]
  have hst : Holds ⟨[], [bs.take 60, bs.drop 60]⟩ bs := by
    refine ⟨by simp, fun c hc => ?_⟩
    simp only [List.mem_cons, List.not_mem_nil, or_false] at hc
    rcases hc with rfl | rfl <;> decide +kernel
  have hloads : LoadsExactly emptyVm bs
      (suLoad idleHost zeroJunk ⟨[], [bs.take 60, bs.drop 60]⟩ emptyVm) := by
    refine (su_load_exact_iff hst (internRoom_empty (by decide +kernel))).mpr ?_
    exact loadsSafely_of_program hwf (by decide) fun u hu => absurd hu List.not_mem_nil
  exact ⟨hloads, hloads.accepts nestedProto ⟨hwf, [1#8], List.append_assoc ..⟩⟩

/-- The same bytes under version 1.0 are loaded as well. -/
theorem su_load_ignores_major :
    ∃ s', suLoad idleHost zeroJunk ⟨headerBytes 1#8 versionMinor ++ emptyProto.bytes, []⟩ emptyVm
        = .ok (0, s')
      ∧ ¬ LoadsExactly emptyVm (headerBytes 1#8 versionMinor ++ emptyProto.bytes)
        (.ok (0, s')) := by
  have hst : Holds ⟨headerBytes 1#8 versionMinor ++ emptyProto.bytes, []⟩
      (headerBytes 1#8 versionMinor ++ emptyProto.bytes) := ⟨by simp, by simp⟩
  obtain ⟨st', hv, hst'⟩ := Load.verifyHeader_header hst (Or.inr rfl) zeroJunk
  have hn : emptyProto.bytes.length
      < Load.levels ⟨headerBytes 1#8 versionMinor ++ emptyProto.bytes, []⟩ := by
    rw [Load.levels, hst.1, List.length_append]
    omega
  have hpre := List.prefix_refl emptyProto.bytes
  rcases readPrototype_cases hst' hn with
    ⟨-, hnone, -⟩ | ⟨-, hnone, -⟩ | ⟨p, st2, hr, -, -, huniq, -⟩
  · exact absurd hpre (hnone _ emptyProto_wellFormed)
  · exact absurd hpre (hnone _ emptyProto_wellFormed)
  · rw [← huniq _ emptyProto_wellFormed hpre] at hr
    have hroom : emptyVm.world.InternRoom (1 + emptyProto.constants.length) :=
      internRoom_empty (by decide)
    obtain ⟨s', hs', -⟩ := pushLoaded_ok (h := idleHost) hroom (by decide)
      fun u hu => absurd hu List.not_mem_nil
    refine ⟨s', (suLoad_of_ok hv hr).trans hs', fun hex => ?_⟩
    have hrej := hex.rejects fun q hq => by
      obtain ⟨hmajor, -⟩ := isProgram_iff.mp hq
      exact absurd hmajor (by decide)
    cases hrej

end Saurus
