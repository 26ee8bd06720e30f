import Saurus.Format.RoundTrip

/-!
# When operands survive the format

The encoders cut an operand to its field without a word. `operands_iff`
says exactly when that goes unnoticed: the tree read back has the operands
that were written, at every nesting depth and with tables of the same
sizes, if and only if every operand fits its field and every table has
fewer than `2 ^ 32` entries.

For the direction from the tree read back, a table that comes out with the
right size was read with the right count, so the reader has not lost its
place before the next one (`readTable_inv`).
-/

namespace Saurus

open Basis Basis.Codec

/-- The function read back has the operands of the one written, and tables
of the same sizes for them to index. -/
structure SameOperands (f : Func) (p : Proto) : Prop where
  inst : List.Forall₂ SameInst f.instructions p.inst
  constants : p.constants.length = f.const.length
  upvalues : p.upvalues.length = f.up.length
  lineinf : p.lineinf.length = f.linenr.length

/-- Every operand fits its field and every table its count. -/
structure OperandsFit (f : Func) : Prop where
  tables : TablesFit f
  inst : ∀ v ∈ f.instructions, v.Fits

theorem sameOperands_asProto {f : Func} (h : OperandsFit f) : SameOperands f (asProto f) := by
  obtain ⟨i, c, u, p, n, l⟩ := f
  exact ⟨List.forall₂_map_right_iff.mpr
      (List.forall₂_same.mpr fun v hv => sameInst_asInst.mpr (h.inst v hv)),
    List.length_map .., List.length_map .., List.length_map ..⟩

mutual

theorem operandsFit_asProto : ∀ (f : Func), f.All OperandsFit →
    f.All TablesFit ∧ f.Rel SameOperands (asProto f)
  | .mk _ _ _ p _ _, h => by
      obtain ⟨ht, hr⟩ := operandsFit_asProtos p h.2
      exact ⟨⟨h.1.tables, ht⟩, ⟨sameOperands_asProto h.1, hr⟩⟩

theorem operandsFit_asProtos : ∀ (fs : List Func), Func.AllList OperandsFit fs →
    Func.AllList TablesFit fs ∧ Func.RelList SameOperands fs (asProtos fs)
  | [], _ => ⟨trivial, trivial⟩
  | f :: fs, h => by
      obtain ⟨ht, hr⟩ := operandsFit_asProto f h.1
      obtain ⟨hts, hrs⟩ := operandsFit_asProtos fs h.2
      exact ⟨⟨ht, hts⟩, ⟨hr, hrs⟩⟩

end

mutual

/-- A tree that came back with its operands had operands that fit. -/
theorem operandsFit_of_read : ∀ (f : Func) {bytes : List Byte}, compileFunc f = .ok bytes →
    ∀ {depth : Nat} {st st' : ReaderBuffer} {rest : List Byte} {p : Proto},
      Holds st (bytes ++ rest) → readPrototype depth st = .ok (p, st') →
      f.Rel SameOperands p → f.All OperandsFit ∧ Holds st' rest
  | .mk i c u fs n l, bytes, h, depth, st, st', rest, p, hst, hread, hrel => by
      obtain ⟨cs, ps, nm, hcs, hps, hnm, rfl⟩ := compileFunc_ok h
      obtain ⟨hnode, hlist⟩ := hrel
      cases depth with
      | zero => cases hread
      | succ depth =>
          rw [readPrototype] at hread
          obtain ⟨inst, st1, hinst, hread⟩ := bind_ok.mp hread
          obtain ⟨constants, st2, hconst, hread⟩ := bind_ok.mp hread
          obtain ⟨upvalues, st3, hup, hread⟩ := bind_ok.mp hread
          obtain ⟨prot, st4, hprot, hread⟩ := bind_ok.mp hread
          obtain ⟨name, st5, hname, hread⟩ := bind_ok.mp hread
          obtain ⟨lineinf, st6, hline, hread⟩ := bind_ok.mp hread
          cases hread
          simp only [List.append_assoc] at hst
          -- each table in turn: the count is right, so the items are where they were written
          obtain ⟨hi, s1, hs1, hmany⟩ := readTable_inv hst hinst hnode.inst.length_eq.symm
          obtain ⟨rfl, hst1⟩ := (Reads.many fun v _ => readInst_reads v).eq hs1 hmany
          obtain ⟨hc, s2, hs2, hmany⟩ := readTable_inv hst1 hconst hnode.constants
          obtain ⟨rfl, hst2⟩ := (readConsts_reads hcs).eq hs2 hmany
          obtain ⟨hu, s3, hs3, hmany⟩ := readTable_inv hst2 hup hnode.upvalues
          obtain ⟨rfl, hst3⟩ := (Reads.many fun v _ => readUpvalue_reads v).eq hs3 hmany
          obtain ⟨hp, s4, hs4, hmany⟩ := readTable_inv hst3 hprot hlist.length
          obtain ⟨hall, hst4⟩ := operandsFit_of_reads fs hps hs4 hmany hlist
          obtain ⟨rfl, hst5⟩ := (readName_reads hnm).eq hst4 hname
          obtain ⟨hl, s6, hs6, hmany⟩ := readTable_inv hst5 hline hnode.lineinf
          obtain ⟨rfl, hst6⟩ := (Reads.many fun v _ => readLine_reads v).eq hs6 hmany
          have hfits : ∀ v ∈ i, v.Fits := fun v hv => sameInst_asInst.mp
            (List.forall₂_same.mp (List.forall₂_map_right_iff.mp hnode.inst) v hv)
          exact ⟨⟨⟨⟨hi, hc, hu, hp, hl⟩, hfits⟩, hall⟩, hst6⟩

theorem operandsFit_of_reads : ∀ (fs : List Func) {bytes : List Byte},
    compileFuncs fs = .ok bytes →
    ∀ {depth : Nat} {st st' : ReaderBuffer} {rest : List Byte} {ps : List Proto},
      Holds st (bytes ++ rest) → readMany (readPrototype depth) fs.length st = .ok (ps, st') →
      Func.RelList SameOperands fs ps → Func.AllList OperandsFit fs ∧ Holds st' rest
  | [], bytes, h, depth, st, st', rest, ps, hst, hread, _ => by
      cases h
      cases hread
      exact ⟨trivial, hst⟩
  | f :: fs, bytes, h, depth, st, st', rest, ps, hst, hread, hrel => by
      obtain ⟨b, hb, h⟩ := Outcome.bind_eq_ok.mp h
      obtain ⟨bs, hbs, h⟩ := Outcome.bind_eq_ok.mp h
      cases h
      obtain ⟨p, st1, hhead, hread⟩ := bind_ok.mp hread
      obtain ⟨ps, st2, htail, hread⟩ := bind_ok.mp hread
      cases hread
      rw [List.append_assoc] at hst
      obtain ⟨hall, hst1⟩ := operandsFit_of_read f hb hst hhead hrel.1
      obtain ⟨halls, hst2⟩ := operandsFit_of_reads fs hbs hst1 htail hrel.2
      exact ⟨⟨hall, halls⟩, hst2⟩

end

/-- **When operands survive.** On the bytes of a tree the compiler accepted,
followed by anything, the tree read back has the operands written if and
only if they all fit. -/
theorem operands_iff {f : Func} {bytes : List Byte} (h : compileFunc f = .ok bytes) {depth : Nat}
    (hdepth : f.depth ≤ depth) {st : ReaderBuffer} {rest : List Byte}
    (hst : Holds st (bytes ++ rest)) :
    (∃ p st', readPrototype depth st = .ok (p, st') ∧ f.Rel SameOperands p)
      ↔ f.All OperandsFit := by
  constructor
  · rintro ⟨p, st', hread, hrel⟩
    exact (operandsFit_of_read f h hst hread hrel).1
  · intro hfits
    obtain ⟨htables, hrel⟩ := operandsFit_asProto f hfits
    obtain ⟨st', hread, -⟩ := readPrototype_reads f h htables hdepth st rest hst
    exact ⟨asProto f, st', hread, hrel⟩

/-! ## Chunks -/

theorem verifyHeader_reads : Reads Holds verifyHeader header () := by
  intro st rest hst
  obtain ⟨st1, hsign, hst1⟩ := bufferRead_reads [0x1b#8, 0x73#8, 0x75#8, 0x63#8] st _ hst
  obtain ⟨st2, hversion, hst2⟩ := bufferRead_reads [0#8, 0#8] st1 _ hst1
  obtain ⟨st3, hflags, hst3⟩ := readUnsigned_reads 2 0 st2 _ hst2
  refine ⟨st3, ?_, hst3⟩
  change (bufferRead 4 st >>= _) = _
  rw [show bufferRead 4 st = _ from hsign]
  change (bufferRead 2 st1 >>= _) = _
  rw [show bufferRead 2 st1 = _ from hversion]
  change (readUnsigned 2 st2 >>= _) = _
  rw [hflags]
  rfl

theorem rel_named {name : List Byte} {f : Func} {p : Proto} :
    (f.named name).Rel SameOperands p ↔ f.Rel SameOperands p := by
  obtain ⟨i, c, u, ps, n, l⟩ := f
  exact and_congr_left fun _ => ⟨fun h => ⟨h.inst, h.constants, h.upvalues, h.lineinf⟩,
    fun h => ⟨h.inst, h.constants, h.upvalues, h.lineinf⟩⟩

theorem all_named {name : List Byte} {f : Func} :
    (f.named name).All OperandsFit ↔ f.All OperandsFit := by
  obtain ⟨i, c, u, ps, n, l⟩ := f
  exact and_congr_left fun _ => ⟨fun h => ⟨h.tables, h.inst⟩, fun h => ⟨h.tables, h.inst⟩⟩

theorem depth_named {name : List Byte} {f : Func} : (f.named name).depth = f.depth := by
  obtain ⟨i, c, u, ps, n, l⟩ := f
  rfl

/-- A chunk that is read holds the tree that was compiled. -/
theorem chunk_operands_iff {f : Func} {name : Option (List Byte)} {bytes : List Byte}
    (h : compile f name = .ok bytes) {depth : Nat} (hdepth : f.depth ≤ depth)
    {st : ReaderBuffer} {rest : List Byte} (hst : Holds st (bytes ++ rest)) :
    (∃ p st', readChunk depth st = .ok (p, st') ∧ f.Rel SameOperands p)
      ↔ f.All OperandsFit := by
  obtain ⟨tree, htree, h⟩ := Outcome.bind_eq_ok.mp h
  cases h
  rw [List.append_assoc] at hst
  obtain ⟨st1, hheader, hst1⟩ := verifyHeader_reads st _ hst
  have hchunk : readChunk depth st = readPrototype depth st1 := by
    change (verifyHeader st >>= fun x => readPrototype depth x.2) = _
    rw [hheader]
    rfl
  have hiff := operands_iff htree (depth_named.trans_le hdepth) hst1
  simp only [rel_named, all_named] at hiff
  rw [hchunk]
  exact hiff

end Saurus
