import Mathlib.Data.List.Forall2
import Mathlib.Data.List.TakeWhile
import Saurus.Format.Read
import Saurus.Format.Write

/-!
# The binary format, written and read back

Each reader is specified against the encoder of the same item, for any
input that follows (`Reads Holds`), and the specifications compose along
the layout. Without any assumption on operands the tree read back is
`asProto f`, the written tree with every field cut to its width
(`readPrototype_reads`); only the counts have to fit, since a reader that
starts with a wrong count is lost.

`read_compile` is the round trip proper: when every field fits, nothing was
cut.
-/

namespace Saurus

open Basis Basis.Codec

/-! ## The input of a reader -/

/-- What a buffer and its callback will still deliver. The callback never
delivers an empty chunk before the end of the input. -/
def Holds (st : ReaderBuffer) (bs : List Byte) : Prop :=
  st.data ++ st.chunks.flatten = bs ∧ ∀ c ∈ st.chunks, c ≠ []

/-- `buffer_read` delivers the next bytes, however they are chunked. -/
theorem bufferFill_ok : ∀ {chunks : List (List Byte)} {data bs rest : List Byte},
    data ++ chunks.flatten = bs ++ rest → (∀ c ∈ chunks, c ≠ []) →
    ∃ st, bufferFill chunks data bs.length = .ok (bs, st) ∧ Holds st rest
  | [], data, bs, rest, h, hne => by
      rw [List.flatten_nil, List.append_nil] at h
      refine ⟨⟨rest, []⟩, ?_, by rw [Holds]; simp⟩
      rw [bufferFill, if_pos (by rw [h, List.length_append]; omega), h, List.take_left,
        List.drop_left]
  | chunk :: chunks, data, bs, rest, h, hne => by
      rw [bufferFill]
      by_cases hle : bs.length ≤ data.length
      · obtain ⟨more, rfl⟩ : ∃ more, data = bs ++ more :=
          (List.prefix_of_prefix_length_le ⟨_, rfl⟩ ⟨_, h⟩ hle).imp fun _ => Eq.symm
        rw [if_pos hle, List.take_left, List.drop_left]
        rw [List.append_assoc] at h
        exact ⟨_, rfl, List.append_cancel_left h, hne⟩
      · obtain ⟨more, rfl⟩ : ∃ more, bs = data ++ more :=
          (List.prefix_of_prefix_length_le ⟨_, rfl⟩ ⟨_, h.symm⟩ (by omega)).imp fun _ => Eq.symm
        rw [List.append_assoc] at h
        have hrest := List.append_cancel_left h
        rw [List.flatten_cons] at hrest
        obtain ⟨st, hrun, hst⟩ := bufferFill_ok hrest fun c hc => hne c (List.mem_cons_of_mem _ hc)
        refine ⟨st, ?_, hst⟩
        rw [if_neg hle, if_neg (hne chunk List.mem_cons_self), List.length_append,
          Nat.add_sub_cancel_left, hrun]
        rfl

theorem bufferRead_reads (bs : List Byte) : Reads Holds (bufferRead bs.length) bs bs :=
  fun _ _ h => bufferFill_ok h.1 h.2

theorem readUnsigned_reads (w n : Nat) :
    Reads Holds (readUnsigned w) (leBytes w n) (n % 256 ^ w) := by
  have h := bufferRead_reads (leBytes w n)
  rw [length_leBytes] at h
  rw [← leNat_leBytes]
  exact h.map leNat

/-! ## Items -/

/-- An instruction with its operands cut to their fields. -/
def asInst (v : Instr) : Instruction :=
  ⟨BitVec.ofNat 8 v.op.code, BitVec.ofNat 8 v.a, BitVec.ofInt 16 v.b⟩

def asConst : Const → ProtoConst
  | .string s => if s = nilName then .nil else .string (cString s ++ [0#8])
  | .number n => .number n
  | .boolean b => if b then .true else .false

def asUp (v : Nat × Nat) : Upvalue := ⟨BitVec.ofNat 16 v.1, BitVec.ofNat 16 v.2⟩

def asName : Option (List Byte) → List Byte
  | none => []
  | some s => cString s ++ [0#8]

theorem ofNat_mod (w n : Nat) : BitVec.ofNat w (n % 2 ^ w) = BitVec.ofNat w n :=
  BitVec.eq_of_toNat_eq (by rw [BitVec.toNat_ofNat, BitVec.toNat_ofNat, Nat.mod_mod])

theorem readInst_reads (v : Instr) : Reads Holds readInst (compileInst v) (asInst v) := by
  refine Reads.of_eq (.bind (readUnsigned_reads 1 v.op.code) (.bind (readUnsigned_reads 1 v.a)
    (.bind (readUnsigned_reads 2 (BitVec.ofInt 16 v.b).toNat) (.pure _)))) ?_ ?_
  · rw [compileInst, List.append_nil, List.append_assoc]
    rfl
  · rw [show 256 ^ 1 = 2 ^ 8 from rfl, show 256 ^ 2 = 2 ^ 16 from rfl, ofNat_mod, ofNat_mod,
      ofNat_mod, BitVec.ofNat_toNat, BitVec.setWidth_eq, asInst]

theorem encodeString_ok {s : List Byte} {bytes : List Byte}
    (h : encodeString (some s) = .ok bytes) :
    (cString s).length + 5 < 2 ^ 32
      ∧ bytes = encodeUint32 (cString s ++ [0#8]).length ++ (cString s ++ [0#8]) := by
  obtain ⟨_, hlen, h⟩ := Outcome.bind_eq_ok.mp h
  rw [Outcome.require_eq_ok, decide_eq_true_eq] at hlen
  cases h
  refine ⟨by omega, ?_⟩
  rw [List.length_append, List.length_singleton, List.append_assoc]

theorem readString_reads (str : List Byte) (hlen : str.length < 2 ^ 32) :
    Reads Holds readString (encodeUint32 str.length ++ str) str := by
  have hsize := readUnsigned_reads 4 str.length
  rw [Nat.mod_eq_of_lt (by omega)] at hsize
  exact hsize.bind (bufferRead_reads str)

theorem readConst_reads {v : Const} {bytes : List Byte} (h : compileConst v = .ok bytes) :
    Reads Holds readConst bytes (asConst v) := by
  cases v with
  | string s =>
      rw [compileConst] at h
      rw [asConst]
      by_cases hnil : s = nilName
      · rw [if_pos hnil] at h ⊢
        cases h
        exact List.append_nil (encodeUint8 0) ▸ (readUnsigned_reads 1 0).bind (.pure _)
      · rw [if_neg hnil] at h ⊢
        obtain ⟨str, hstr, h⟩ := Outcome.bind_eq_ok.mp h
        cases h
        obtain ⟨hlen, rfl⟩ := encodeString_ok hstr
        have hstr := readString_reads (cString s ++ [0#8])
          (by rw [List.length_append, List.length_singleton]; omega)
        exact Reads.of_eq (.bind (readUnsigned_reads 1 4) (.bind hstr (.pure _)))
          (by rw [List.append_nil]; rfl) rfl
  | number n =>
      cases h
      refine Reads.of_eq (.bind (readUnsigned_reads 1 3)
        (.bind (readUnsigned_reads 8 n.toNat) (.pure _))) (by rw [List.append_nil]; rfl) ?_
      rw [show 256 ^ 8 = 2 ^ 64 from rfl, ofNat_mod, BitVec.ofNat_toNat, BitVec.setWidth_eq,
        asConst]
  | boolean b =>
      cases h
      cases b with
      | true => exact List.append_nil (encodeUint8 2) ▸ (readUnsigned_reads 1 2).bind (.pure _)
      | false => exact List.append_nil (encodeUint8 1) ▸ (readUnsigned_reads 1 1).bind (.pure _)

theorem readConsts_reads : ∀ {vs : List Const} {bytes : List Byte},
    compileConsts vs = .ok bytes →
    Reads Holds (readMany readConst vs.length) bytes (vs.map asConst)
  | [], _, h => by
      cases h
      exact .pure []
  | v :: vs, _, h => by
      obtain ⟨b, hb, h⟩ := Outcome.bind_eq_ok.mp h
      obtain ⟨bs, hbs, h⟩ := Outcome.bind_eq_ok.mp h
      cases h
      refine (readConst_reads hb).bind ?_
      exact List.append_nil bs ▸ (readConsts_reads hbs).bind (.pure (asConst v :: vs.map asConst))

theorem readUpvalue_reads (v : Nat × Nat) : Reads Holds readUpvalue (compileUp v) (asUp v) := by
  refine Reads.of_eq (.bind (readUnsigned_reads 2 v.1)
    (.bind (readUnsigned_reads 2 v.2) (.pure _))) (by rw [List.append_nil, compileUp]; rfl) ?_
  rw [show 256 ^ 2 = 2 ^ 16 from rfl, ofNat_mod, ofNat_mod, asUp]

theorem readLine_reads (n : Nat) :
    Reads Holds (BitVec.ofNat 32 <$> readUnsigned 4) (encodeUint32 n) (BitVec.ofNat 32 n) := by
  have h := (readUnsigned_reads 4 n).map (BitVec.ofNat 32)
  rwa [show 256 ^ 4 = 2 ^ 32 from rfl, ofNat_mod] at h

theorem readName_reads {name : Option (List Byte)} {bytes : List Byte}
    (h : encodeString name = .ok bytes) : Reads Holds readString bytes (asName name) := by
  cases name with
  | none =>
      cases h
      exact List.append_nil (encodeUint32 0) ▸ readString_reads [] (by decide)
  | some s =>
      obtain ⟨hlen, rfl⟩ := encodeString_ok h
      refine readString_reads _ ?_
      rw [List.length_append, List.length_singleton]
      omega

/-! ## Tables -/

section Table

variable {α : Type} {item : Reader α}

theorem readTable_reads {n : Nat} {bytes : List Byte} {xs : List α} (hn : n < 2 ^ 32)
    (h : Reads Holds (readMany item n) bytes xs) :
    Reads Holds (readTable item) (encodeUint32 n ++ bytes) xs := by
  have hcount := readUnsigned_reads 4 n
  rw [Nat.mod_eq_of_lt (by omega)] at hcount
  exact hcount.bind h

/-- A table read with the right number of entries was read with the right
count. -/
theorem readTable_inv {n : Nat} {rest : List Byte} {st st' : ReaderBuffer} {xs : List α}
    (hst : Holds st (encodeUint32 n ++ rest)) (h : readTable item st = .ok (xs, st'))
    (hlen : xs.length = n) :
    n < 2 ^ 32 ∧ ∃ st1, Holds st1 rest ∧ readMany item n st1 = .ok (xs, st') := by
  obtain ⟨num, st1, hnum, hmany⟩ := bind_ok.mp h
  obtain ⟨rfl, hst1⟩ := (readUnsigned_reads 4 n).eq hst hnum
  have hnum' := length_readMany hmany
  have hmod : n % 256 ^ 4 = n := hnum'.symm.trans hlen
  rw [hmod] at hmany
  exact ⟨hmod ▸ Nat.mod_lt _ (by decide), st1, hst1, hmany⟩

end Table

/-! ## The tree -/

mutual

/-- The tree with every field cut to its width. -/
def asProto : Func → Proto
  | .mk instructions const up prot name linenr =>
      .mk (instructions.map asInst) (const.map asConst) (up.map asUp) (asProtos prot)
        (asName name) (linenr.map (BitVec.ofNat 32))

def asProtos : List Func → List Proto
  | [] => []
  | f :: fs => asProto f :: asProtos fs

end

/-- All counts of a function fit their fields. -/
def TablesFit (f : Func) : Prop :=
  f.instructions.length < 2 ^ 32 ∧ f.const.length < 2 ^ 32 ∧ f.up.length < 2 ^ 32
    ∧ f.prot.length < 2 ^ 32 ∧ f.linenr.length < 2 ^ 32

/-- The parts `compile_func` puts together. -/
theorem compileFunc_ok {i : List Instr} {c : List Const} {u : List (Nat × Nat)} {p : List Func}
    {n : Option (List Byte)} {l : List Nat} {bytes : List Byte}
    (h : compileFunc (.mk i c u p n l) = .ok bytes) :
    ∃ cs ps nm, compileConsts c = .ok cs ∧ compileFuncs p = .ok ps ∧ encodeString n = .ok nm
      ∧ bytes = encodeUint32 i.length ++ (i.flatMap compileInst ++ (encodeUint32 c.length ++ (cs
        ++ (encodeUint32 u.length ++ (u.flatMap compileUp ++ (encodeUint32 p.length ++ (ps
        ++ (nm ++ (encodeUint32 l.length ++ l.flatMap encodeUint32))))))))) := by
  rw [compileFunc] at h
  obtain ⟨cs, hcs, h⟩ := Outcome.bind_eq_ok.mp h
  obtain ⟨ps, hps, h⟩ := Outcome.bind_eq_ok.mp h
  obtain ⟨nm, hnm, h⟩ := Outcome.bind_eq_ok.mp h
  cases h
  exact ⟨cs, ps, nm, hcs, hps, hnm, rfl⟩

mutual

/-- **Reading back.** Whatever the operands are, what is read is the tree
with its fields cut to width. -/
theorem readPrototype_reads : ∀ (f : Func) {bytes : List Byte}, compileFunc f = .ok bytes →
    f.All TablesFit → ∀ {depth : Nat}, f.depth ≤ depth →
    Reads Holds (readPrototype depth) bytes (asProto f)
  | .mk i c u p n l, bytes, h, hfit, depth, hdepth => by
      obtain ⟨cs, ps, nm, hcs, hps, hnm, rfl⟩ := compileFunc_ok h
      obtain ⟨⟨hi, hc, hu, hp, hl⟩, hnested⟩ := hfit
      rw [Func.depth] at hdepth
      obtain ⟨d, rfl⟩ : ∃ d, depth = d + 1 := ⟨depth - 1, by omega⟩
      have hinst := readTable_reads hi (Reads.many fun v _ => readInst_reads v)
      have hconst := readTable_reads hc (readConsts_reads hcs)
      have hup := readTable_reads hu (Reads.many fun v _ => readUpvalue_reads v)
      have hprot := readTable_reads hp
        (readPrototypes_reads p hps hnested (by omega : Func.depthList p ≤ d))
      have hname := readName_reads hnm
      have hline := readTable_reads hl (Reads.many fun v _ => readLine_reads v)
      refine Reads.of_eq (.bind hinst (.bind hconst (.bind hup (.bind hprot (.bind hname
        (.bind hline (.pure _))))))) ?_ rfl
      simp only [List.append_assoc, List.append_nil]
      rfl

theorem readPrototypes_reads : ∀ (fs : List Func) {bytes : List Byte},
    compileFuncs fs = .ok bytes → Func.AllList TablesFit fs →
    ∀ {depth : Nat}, Func.depthList fs ≤ depth →
    Reads Holds (readMany (readPrototype depth) fs.length) bytes (asProtos fs)
  | [], bytes, h, _, _, _ => by
      cases h
      exact .pure []
  | f :: fs, bytes, h, hfit, depth, hdepth => by
      obtain ⟨b, hb, h⟩ := Outcome.bind_eq_ok.mp h
      obtain ⟨bs, hbs, h⟩ := Outcome.bind_eq_ok.mp h
      cases h
      rw [Func.depthList] at hdepth
      have hhead := readPrototype_reads f hb hfit.1 (by omega : f.depth ≤ depth)
      have htail := readPrototypes_reads fs hbs hfit.2 (by omega : Func.depthList fs ≤ depth)
      exact Reads.of_eq (.bind hhead (.bind htail (.pure _))) (by rw [List.append_nil]) rfl

end

/-! ## The round trip -/

/-- The same operation with the same operands. -/
def SameInst (v : Instr) (q : Instruction) : Prop :=
  Op.ofCode q.id.toNat = some v.op ∧ q.a.toNat = v.a ∧ q.b.toInt = v.b

/-- The same constant: nil for the string `"nil"`, other strings with their
terminating NUL. -/
def SameConst : Const → ProtoConst → Prop
  | .string s, .nil => s = nilName
  | .string s, .string str => s ≠ nilName ∧ str = s ++ [0#8]
  | .number n, .number m => m = n
  | .boolean true, .true => True
  | .boolean false, .false => True
  | _, _ => False

def SameUp (v : Nat × Nat) (q : Upvalue) : Prop := q.lv.toNat = v.1 ∧ q.idx.toNat = v.2

def SameName : Option (List Byte) → List Byte → Prop
  | none, name => name = []
  | some s, name => name = s ++ [0#8]

/-- One function, read back unchanged. -/
structure SameNode (f : Func) (p : Proto) : Prop where
  inst : List.Forall₂ SameInst f.instructions p.inst
  constants : List.Forall₂ SameConst f.const p.constants
  upvalues : List.Forall₂ SameUp f.up p.upvalues
  name : SameName f.name p.name
  lineinf : List.Forall₂ (fun n (q : BitVec 32) => q.toNat = n) f.linenr p.lineinf

/-- Both operands fit their fields. -/
def Instr.Fits (v : Instr) : Prop := v.a < 2 ^ 8 ∧ -2 ^ 15 ≤ v.b ∧ v.b < 2 ^ 15

/-- A string the format can hold. -/
def StringFits (s : List Byte) : Prop := 0#8 ∉ s ∧ s.length < 2 ^ 32 - 8

/-- Every field of the function fits the format. -/
structure NodeFits (f : Func) : Prop where
  tables : TablesFit f
  inst : ∀ v ∈ f.instructions, v.Fits
  const : ∀ s, .string s ∈ f.const → StringFits s
  up : ∀ v ∈ f.up, v.1 < 2 ^ 16 ∧ v.2 < 2 ^ 16
  name : ∀ s, f.name = some s → StringFits s
  linenr : ∀ n ∈ f.linenr, n < 2 ^ 32

theorem sameInst_asInst {v : Instr} : SameInst v (asInst v) ↔ v.Fits := by
  have hcode : (asInst v).id.toNat = v.op.code := by
    rw [asInst, BitVec.toNat_ofNat, Nat.mod_eq_of_lt v.op.code_lt]
  rw [SameInst, hcode, Op.ofCode_code, asInst, Instr.Fits]
  dsimp only
  rw [BitVec.toNat_ofNat, BitVec.toInt_ofInt, Int.bmod_def]
  constructor
  · rintro ⟨-, ha, hb⟩
    split at hb <;> omega
  · rintro ⟨ha, hb⟩
    refine ⟨rfl, Nat.mod_eq_of_lt ha, ?_⟩
    split <;> omega

theorem cString_eq {s : List Byte} (h : 0#8 ∉ s) : cString s = s :=
  List.takeWhile_eq_self_iff.mpr fun b hb => by
    rw [decide_eq_true_eq]
    rintro rfl
    exact h hb

theorem encodeString_fits {s : List Byte} (h : StringFits s) :
    ∃ bytes, encodeString (some s) = .ok bytes := by
  have hlen := h.2
  rw [encodeString, cString_eq h.1, decide_eq_true (by omega)]
  exact ⟨_, rfl⟩

theorem sameNode_asProto {f : Func} (h : NodeFits f) : SameNode f (asProto f) := by
  obtain ⟨i, c, u, p, n, l⟩ := f
  refine ⟨?_, ?_, ?_, ?_, ?_⟩
  · exact List.forall₂_map_right_iff.mpr
      (List.forall₂_same.mpr fun v hv => sameInst_asInst.mpr (h.inst v hv))
  · refine List.forall₂_map_right_iff.mpr (List.forall₂_same.mpr fun v hv => ?_)
    cases v with
    | string s =>
        rw [asConst]
        by_cases hnil : s = nilName
        · rw [if_pos hnil]; exact hnil
        · rw [if_neg hnil, cString_eq (h.const s hv).1]; exact ⟨hnil, rfl⟩
    | number n => exact rfl
    | boolean b => cases b <;> exact trivial
  · refine List.forall₂_map_right_iff.mpr (List.forall₂_same.mpr fun v hv => ?_)
    obtain ⟨h1, h2⟩ := h.up v hv
    exact ⟨Nat.mod_eq_of_lt h1, Nat.mod_eq_of_lt h2⟩
  · cases n with
    | none => exact rfl
    | some s => exact congrArg (· ++ [0#8]) (cString_eq (h.name s rfl).1)
  · exact List.forall₂_map_right_iff.mpr
      (List.forall₂_same.mpr fun v hv => Nat.mod_eq_of_lt (h.linenr v hv))

theorem compileConsts_fits : ∀ {vs : List Const}, (∀ s, .string s ∈ vs → StringFits s) →
    ∃ bytes, compileConsts vs = .ok bytes
  | [], _ => ⟨[], rfl⟩
  | v :: vs, h => by
      obtain ⟨bs, hbs⟩ := compileConsts_fits fun s hs => h s (List.mem_cons_of_mem _ hs)
      have hv : ∃ b, compileConst v = .ok b := by
        cases v with
        | string s =>
            rw [compileConst]
            by_cases hnil : s = nilName
            · exact ⟨_, if_pos hnil⟩
            · obtain ⟨b, hb⟩ := encodeString_fits (h s List.mem_cons_self)
              exact ⟨encodeUint8 4 ++ b, by rw [if_neg hnil, hb]; rfl⟩
        | number n => exact ⟨_, rfl⟩
        | boolean b => exact ⟨_, rfl⟩
      obtain ⟨b, hb⟩ := hv
      exact ⟨b ++ bs, by rw [compileConsts, hb, hbs]; rfl⟩

mutual

theorem compileFunc_fits : ∀ (f : Func), f.All NodeFits →
    (∃ bytes, compileFunc f = .ok bytes) ∧ f.All TablesFit ∧ f.Rel SameNode (asProto f)
  | .mk i c u p n l, h => by
      obtain ⟨cs, hcs⟩ := compileConsts_fits h.1.const
      obtain ⟨⟨ps, hps⟩, htables, hrel⟩ := compileFuncs_fits p h.2
      have hname : ∃ nm, encodeString n = .ok nm := by
        cases n with
        | none => exact ⟨_, rfl⟩
        | some s => exact encodeString_fits (h.1.name s rfl)
      obtain ⟨nm, hnm⟩ := hname
      refine ⟨?_, ⟨h.1.tables, htables⟩, ⟨sameNode_asProto h.1, hrel⟩⟩
      rw [Func.const] at hcs
      rw [compileFunc, hcs, hps, hnm]
      exact ⟨_, rfl⟩

theorem compileFuncs_fits : ∀ (fs : List Func), Func.AllList NodeFits fs →
    (∃ bytes, compileFuncs fs = .ok bytes) ∧ Func.AllList TablesFit fs
      ∧ Func.RelList SameNode fs (asProtos fs)
  | [], _ => ⟨⟨[], rfl⟩, trivial, trivial⟩
  | f :: fs, h => by
      obtain ⟨⟨b, hb⟩, ht, hr⟩ := compileFunc_fits f h.1
      obtain ⟨⟨bs, hbs⟩, hts, hrs⟩ := compileFuncs_fits fs h.2
      exact ⟨⟨b ++ bs, by rw [compileFuncs, hb, hbs]; rfl⟩, ⟨ht, hts⟩, ⟨hr, hrs⟩⟩

end

/-- **Binary format round trip.** A function tree whose fields fit is
written without error, and `read_prototype` on the bytes, whatever follows
them and however they arrive, consumes exactly these and yields the same
tree. -/
theorem read_compile (f : Func) (hfits : f.All NodeFits) :
    ∃ bytes, compileFunc f = .ok bytes ∧ ∀ depth, f.depth ≤ depth →
      ∀ st rest, Holds st (bytes ++ rest) →
        ∃ p st', readPrototype depth st = .ok (p, st') ∧ Holds st' rest ∧ f.Rel SameNode p := by
  obtain ⟨⟨bytes, hbytes⟩, htables, hrel⟩ := compileFunc_fits f hfits
  refine ⟨bytes, hbytes, fun depth hdepth st rest hst => ?_⟩
  obtain ⟨st', hread, hst'⟩ := readPrototype_reads f hbytes htables hdepth st rest hst
  exact ⟨asProto f, st', hread, hst', hrel⟩

/-- A variadic function around one that captures a variable. -/
theorem read_compile_nested :
    let f : Func := .mk [⟨.lambda, 0, -1⟩, ⟨.push, 1, 0⟩, ⟨.return, 0, 0⟩]
      [.string nilName, .string [0x61#8]] []
      [.mk [⟨.load, 0, 0⟩, ⟨.return, 0, 0⟩] [] [(1, 0)] [] none [1, 1]] (some [0x62#8]) [1, 1, 2]
    ∃ bytes, compileFunc f = .ok bytes ∧ ∀ depth, f.depth ≤ depth →
      ∀ st rest, Holds st (bytes ++ rest) →
        ∃ p st', readPrototype depth st = .ok (p, st') ∧ Holds st' rest ∧ f.Rel SameNode p := by
  refine read_compile _ ⟨⟨?_, ?_, ?_, ?_, ?_, ?_⟩, ⟨⟨?_, ?_, ?_, ?_, ?_, ?_⟩, trivial⟩, trivial⟩
  all_goals simp [TablesFit, Func.instructions, Func.const, Func.up, Func.prot, Func.linenr,
    Func.name, Instr.Fits, StringFits, nilName]

end Saurus
