import Saurus.Basis.Decode
import Saurus.Format.RoundTrip

/-!
# The prototypes there are

The format of a prototype on its own terms, not as what the compiler happens
to write: `Proto.bytes` lays a prototype out, and `WellFormed` asks that its
counts fit. `read_prototype` accepts exactly the inputs that begin with such a
layout. It can fail in two ways: the input ends too soon, or a constant has a
tag that does not exist, which is `UnknownTag`.

The reader is cut off at a number of levels; an input is longer than it is
nested, so with more levels than bytes the cut is never noticed.
-/

namespace Saurus

open Basis Basis.Codec

/-! ## Layout -/

/-- A count and that many items. -/
def tableBytes {α : Type} (enc : α → List Byte) (xs : List α) : List Byte :=
  leBytes 4 xs.length ++ xs.flatMap enc

/-- `const_string_t` -/
def stringBytes (str : List Byte) : List Byte := leBytes 4 str.length ++ str

def Instruction.bytes (q : Instruction) : List Byte :=
  leBytes 1 q.id.toNat ++ (leBytes 1 q.a.toNat ++ leBytes 2 q.b.toNat)

def Upvalue.bytes (q : Upvalue) : List Byte := leBytes 2 q.lv.toNat ++ leBytes 2 q.idx.toNat

/-- The `id` of a constant. -/
def ProtoConst.id : ProtoConst → Nat
  | .nil => 0
  | .false => 1
  | .true => 2
  | .number _ => 3
  | .string _ => 4

def ProtoConst.payload : ProtoConst → List Byte
  | .number num => leBytes 8 num.toNat
  | .string str => stringBytes str
  | _ => []

def ProtoConst.bytes (v : ProtoConst) : List Byte := leBytes 1 v.id ++ v.payload

def lineBytes (line : BitVec 32) : List Byte := leBytes 4 line.toNat

mutual

/-- A prototype in the order of `read_prototype`. -/
def Proto.bytes : Proto → List Byte
  | .mk inst constants upvalues prot name lineinf =>
      tableBytes Instruction.bytes inst ++ (tableBytes ProtoConst.bytes constants
        ++ (tableBytes Upvalue.bytes upvalues ++ ((leBytes 4 prot.length ++ Proto.bytesList prot)
        ++ (stringBytes name ++ tableBytes lineBytes lineinf))))

def Proto.bytesList : List Proto → List Byte
  | [] => []
  | p :: ps => p.bytes ++ Proto.bytesList ps

end

/-- A string whose size fits. -/
def ProtoConst.Sized : ProtoConst → Prop
  | .string str => str.length < 2 ^ 32
  | _ => True

mutual

/-- All counts of the tree fit their four bytes. -/
def Proto.WellFormed : Proto → Prop
  | .mk inst constants upvalues prot name lineinf =>
      inst.length < 2 ^ 32 ∧ (constants.length < 2 ^ 32 ∧ ∀ v ∈ constants, v.Sized)
        ∧ upvalues.length < 2 ^ 32 ∧ (prot.length < 2 ^ 32 ∧ Proto.WellFormedList prot)
        ∧ name.length < 2 ^ 32 ∧ lineinf.length < 2 ^ 32

def Proto.WellFormedList : List Proto → Prop
  | [] => True
  | p :: ps => p.WellFormed ∧ Proto.WellFormedList ps

end

mutual

/-- Levels of nesting, a prototype without prototypes having one. -/
def Proto.depth : Proto → Nat
  | .mk _ _ _ prot _ _ => Proto.depthList prot + 1

def Proto.depthList : List Proto → Nat
  | [] => 0
  | p :: ps => max p.depth (Proto.depthList ps)

end

theorem bytesList_eq : ∀ ps : List Proto, Proto.bytesList ps = ps.flatMap Proto.bytes
  | [] => rfl
  | p :: ps => by rw [Proto.bytesList, bytesList_eq ps, List.flatMap_cons]

theorem wellFormedList_iff : ∀ {ps : List Proto},
    Proto.WellFormedList ps ↔ ∀ p ∈ ps, p.WellFormed
  | [] => by simp [Proto.WellFormedList]
  | p :: ps => by rw [Proto.WellFormedList, wellFormedList_iff, List.forall_mem_cons]

theorem depthList_le : ∀ {ps : List Proto} {d : Nat},
    Proto.depthList ps ≤ d ↔ ∀ p ∈ ps, p.depth ≤ d
  | [], d => by simp [Proto.depthList]
  | p :: ps, d => by rw [Proto.depthList, Nat.max_le, depthList_le, List.forall_mem_cons]

/-! ## Fields -/

/-- A read that can only come to the end of the input. -/
abbrev DecodesField {α : Type} (r : Reader α) (enc : α → List Byte) (valid : α → Prop) : Prop :=
  Decodes Holds .eof r enc valid fun _ _ => False

theorem bufferFill_short : ∀ {chunks : List (List Byte)} {data : List Byte} {n : Nat},
    (data ++ chunks.flatten).length < n → bufferFill chunks data n = .error .eof
  | [], data, n, h => by
      rw [List.flatten_nil, List.append_nil] at h
      rw [bufferFill, if_neg (Nat.not_le.mpr h)]
  | chunk :: chunks, data, n, h => by
      rw [List.length_append, List.flatten_cons, List.length_append] at h
      rw [bufferFill, if_neg (by omega)]
      by_cases hchunk : chunk = []
      · rw [if_pos hchunk]
      · rw [if_neg hchunk, bufferFill_short (by rw [List.length_append]; omega)]
        rfl

theorem bufferRead_decodes (n : Nat) :
    DecodesField (bufferRead n) (fun bs => bs) (fun bs => bs.length = n) where
  reads := fun bs hbs => hbs ▸ bufferRead_reads bs
  fails := fun _ _ hbad => hbad.elim
  sound := fun {st st' bs a} hst hr => by
    by_cases hle : n ≤ bs.length
    · have hlen : (bs.take n).length = n := by rw [List.length_take]; omega
      have hR : Holds st (bs.take n ++ bs.drop n) := (List.take_append_drop n bs).symm ▸ hst
      have hreads := bufferRead_reads (bs.take n)
      rw [hlen] at hreads
      obtain ⟨rfl, hst'⟩ := hreads.eq hR hr
      exact ⟨hlen, bs.drop n, (List.take_append_drop n bs).symm, hst'⟩
    · have hshort : bufferRead n st = .error .eof :=
        bufferFill_short (by rw [hst.1]; omega)
      rw [hshort] at hr
      cases hr
  error := fun {st bs e} hst hr => by
    by_cases hle : n ≤ bs.length
    · have hlen : (bs.take n).length = n := by rw [List.length_take]; omega
      have hR : Holds st (bs.take n ++ bs.drop n) := (List.take_append_drop n bs).symm ▸ hst
      have hreads := bufferRead_reads (bs.take n)
      rw [hlen] at hreads
      obtain ⟨st', hok, -⟩ := hreads st _ hR
      rw [hok] at hr
      cases hr
    · have hshort : bufferRead n st = .error .eof :=
        bufferFill_short (by rw [hst.1]; omega)
      rw [hshort] at hr
      cases hr
      exact Or.inl rfl

theorem readUnsigned_decodes (w : Nat) :
    DecodesField (readUnsigned w) (leBytes w) (fun n => n < 256 ^ w) := by
  refine (bufferRead_decodes w).map (fun bs hbs => ?_) fun n hn => ⟨length_leBytes w n, ?_⟩
  · rw [← hbs]
    exact ⟨leNat_lt bs, leBytes_leNat bs⟩
  · rw [leNat_leBytes, Nat.mod_eq_of_lt hn]

theorem readLine_decodes :
    DecodesField (BitVec.ofNat 32 <$> readUnsigned 4) lineBytes (fun _ => True) := by
  refine (readUnsigned_decodes 4).map (fun n hn => ⟨trivial, ?_⟩) fun q _ => ⟨q.isLt, ?_⟩
  · rw [BitVec.toNat_ofNat]
    exact Nat.mod_eq_of_lt hn
  · rw [BitVec.ofNat_toNat, BitVec.setWidth_eq]

/-! ## Items -/

theorem toNat_ofNat_of_lt {w n : Nat} (h : n < 2 ^ w) : (BitVec.ofNat w n).toNat = n := by
  rw [BitVec.toNat_ofNat, Nat.mod_eq_of_lt h]

theorem ofNat_toNat_self {w : Nat} (q : BitVec w) : BitVec.ofNat w q.toNat = q := by
  rw [BitVec.ofNat_toNat, BitVec.setWidth_eq]

theorem readString_decodes :
    DecodesField readString stringBytes (fun str => str.length < 2 ^ 32) := by
  refine Decodes.field List.length (readUnsigned_decodes 4)
    (fun _ => (and_iff_left (b := True) trivial).symm) fun size _ => ?_
  exact (bufferRead_decodes size).congr (fun _ _ => rfl) (fun _ => and_iff_left trivial)
    fun _ _ => Iff.rfl

theorem readInst_decodes : DecodesField readInst Instruction.bytes (fun _ => True) := by
  refine Decodes.field (fun q : Instruction => q.id.toNat) (readUnsigned_decodes 1)
    (fun q => (iff_true_intro ⟨q.id.isLt, trivial⟩).symm) fun id hid => ?_
  refine Decodes.field (fun q : Instruction => q.a.toNat) (readUnsigned_decodes 1)
    (fun q => ⟨fun h => ⟨q.a.isLt, h⟩, And.right⟩) fun a ha => ?_
  refine Decodes.last (fun q : Instruction => q.b.toNat) (readUnsigned_decodes 2)
    (fun b hb => ?_) fun q hq => ⟨q.b.isLt, ?_⟩
  · exact ⟨⟨toNat_ofNat_of_lt ha, toNat_ofNat_of_lt hid, trivial⟩, toNat_ofNat_of_lt hb⟩
  · obtain ⟨rfl, rfl, -⟩ := hq
    rw [ofNat_toNat_self, ofNat_toNat_self, ofNat_toNat_self]

theorem readUpvalue_decodes : DecodesField readUpvalue Upvalue.bytes (fun _ => True) := by
  refine Decodes.field (fun q : Upvalue => q.lv.toNat) (readUnsigned_decodes 2)
    (fun q => (iff_true_intro ⟨q.lv.isLt, trivial⟩).symm) fun lv hlv => ?_
  refine Decodes.last (fun q : Upvalue => q.idx.toNat) (readUnsigned_decodes 2)
    (fun idx hidx => ?_) fun q hq => ⟨q.idx.isLt, ?_⟩
  · exact ⟨⟨toNat_ofNat_of_lt hlv, trivial⟩, toNat_ofNat_of_lt hidx⟩
  · obtain ⟨rfl, -⟩ := hq
    rw [ofNat_toNat_self, ofNat_toNat_self]

/-- A constant whose tag does not exist. -/
def BadConst (e : ReadError) (pre : List Byte) : Prop :=
  e = .assert ∧ ∃ tag : Nat, 4 < tag ∧ tag < 256 ∧ pre = leBytes 1 tag

/-- What follows the tag of a constant. -/
def readPayload : Nat → Reader ProtoConst
  | 0 => pure .nil
  | 1 => pure .false
  | 2 => pure .true
  | 3 => do pure (.number (BitVec.ofNat 64 (← readUnsigned 8)))
  | 4 => do pure (.string (← readString))
  | _ => throw .assert

theorem readConst_eq : readConst = readUnsigned 1 >>= readPayload := rfl

/-- `obj.num` of a constant that has one. -/
def ProtoConst.numVal : ProtoConst → Nat
  | .number num => num.toNat
  | _ => 0

/-- `obj.str` of a constant that has one. -/
def ProtoConst.strVal : ProtoConst → List Byte
  | .string str => str
  | _ => []

/-- A constant that is its tag. -/
theorem tag_decodes {c : ProtoConst} (hc : ∀ v : ProtoConst, v.id = c.id → v = c)
    (hp : c.payload = []) (hs : c.Sized) :
    DecodesField (pure c : Reader ProtoConst) ProtoConst.payload
      (fun v => v.id = c.id ∧ v.Sized) := by
  have hiff : ∀ v : ProtoConst, (v.id = c.id ∧ v.Sized) ↔ v = c := fun v =>
    ⟨fun h => hc v h.1, by rintro rfl; exact ⟨rfl, hs⟩⟩
  refine (Decodes.pure hiff).congr (fun v hv => ?_) (fun _ => Iff.rfl) fun _ _ => Iff.rfl
  rw [(hiff v).mp hv, hp]

/-- The tag is known: only the input can be short. -/
theorem payload_decodes : ∀ {id : Nat}, id ≤ 4 →
    DecodesField (readPayload id) ProtoConst.payload (fun v => v.id = id ∧ v.Sized)
  | 0, _ => tag_decodes (c := .nil) (fun v hv => by cases v <;> first | rfl | cases hv) rfl trivial
  | 1, _ =>
      tag_decodes (c := .false) (fun v hv => by cases v <;> first | rfl | cases hv) rfl trivial
  | 2, _ => tag_decodes (c := .true) (fun v hv => by cases v <;> first | rfl | cases hv) rfl trivial
  | 3, _ => by
      have hnum : ∀ v : ProtoConst, v.id = 3 → ∃ num, v = .number num := fun v hv => by
        cases v <;> first | exact ⟨_, rfl⟩ | cases hv
      refine (Decodes.last ProtoConst.numVal (readUnsigned_decodes 8)
        (fun n hn => ⟨⟨rfl, trivial⟩, ?_⟩)
        fun v hv => ?_).congr (fun v hv => ?_) (fun _ => Iff.rfl) fun _ _ => Iff.rfl
      · exact toNat_ofNat_of_lt hn
      · obtain ⟨num, rfl⟩ := hnum v hv.1
        exact ⟨num.isLt, congrArg ProtoConst.number (ofNat_toNat_self num)⟩
      · obtain ⟨num, rfl⟩ := hnum v hv.1
        rfl
  | 4, _ => by
      have hstr : ∀ v : ProtoConst, v.id = 4 → ∃ str, v = .string str := fun v hv => by
        cases v <;> first | exact ⟨_, rfl⟩ | cases hv
      refine (Decodes.last ProtoConst.strVal readString_decodes (fun str hstr => ⟨⟨rfl, hstr⟩, rfl⟩)
        fun v hv => ?_).congr (fun v hv => ?_) (fun _ => Iff.rfl) fun _ _ => Iff.rfl
      · obtain ⟨str, rfl⟩ := hstr v hv.1
        exact ⟨hv.2, rfl⟩
      · obtain ⟨str, rfl⟩ := hstr v hv.1
        rfl
  | n + 5, h => absurd h (by omega)

theorem ProtoConst.id_le (v : ProtoConst) : v.id ≤ 4 := by cases v <;> simp [ProtoConst.id]

/-- Errors after a tag. -/
def BadPayload (id : Nat) (e : ReadError) (pre : List Byte) : Prop :=
  4 < id ∧ e = .assert ∧ pre = []

theorem readPayload_decodes (id : Nat) :
    Decodes Holds .eof (readPayload id) ProtoConst.payload (fun v => v.id = id ∧ v.Sized)
      (BadPayload id) := by
  by_cases hid : id ≤ 4
  · exact (payload_decodes hid).congr (fun _ _ => rfl) (fun _ => Iff.rfl)
      fun _ _ => iff_false_intro fun h => absurd h.1 (by omega)
  · obtain ⟨n, rfl⟩ : ∃ n, id = n + 5 := ⟨id - 5, by omega⟩
    have hthrow : readPayload (n + 5) = fun _ => .error .assert := rfl
    rw [hthrow]
    refine (Decodes.throw (fun v (hv : v.id = n + 5 ∧ v.Sized) => ?_) ProtoConst.payload).congr
      (fun _ _ => rfl) (fun _ => Iff.rfl) fun e pre => ?_
    · have := v.id_le
      omega
    · exact ⟨fun h => h.2, fun h => ⟨by omega, h⟩⟩

theorem readConst_decodes :
    Decodes Holds .eof readConst ProtoConst.bytes ProtoConst.Sized BadConst := by
  rw [readConst_eq]
  refine (Decodes.bind ProtoConst.id (readUnsigned_decodes 1) fun id _ =>
    readPayload_decodes id).congr (fun _ _ => rfl) (fun v => ?_) fun e pre => ?_
  · have hle := v.id_le
    exact ⟨fun h => ⟨by omega, h⟩, And.right⟩
  · rw [badSeq_of_field]
    constructor
    · rintro ⟨rfl, tag, hlt, htag, rfl⟩
      exact ⟨tag, [], htag, ⟨hlt, rfl, rfl⟩, (List.append_nil _).symm⟩
    · rintro ⟨tag, _, htag, ⟨hlt, rfl, rfl⟩, rfl⟩
      exact ⟨rfl, tag, hlt, htag, List.append_nil _⟩

/-! ## Tables -/

section Table

variable {α : Type} {item : Reader α} {enc : α → List Byte} {valid : α → Prop}
  {B : ReadError → List Byte → Prop}

/-- A table with a bad entry after some good ones. -/
def BadTable (enc : α → List Byte) (valid : α → Prop) (B : ReadError → List Byte → Prop)
    (e : ReadError) (pre : List Byte) : Prop :=
  ∃ (n : Nat) (xs : List α) (tail : List Byte), n < 2 ^ 32 ∧ xs.length < n ∧ (∀ x ∈ xs, valid x)
    ∧ B e tail ∧ pre = leBytes 4 n ++ (xs.flatMap enc ++ tail)

theorem readTable_decodes (h : Decodes Holds .eof item enc valid B) :
    Decodes Holds .eof (readTable item) (tableBytes enc)
      (fun xs => xs.length < 2 ^ 32 ∧ ∀ x ∈ xs, valid x) (BadTable enc valid B) := by
  refine (Decodes.bind List.length (readUnsigned_decodes 4) fun n _ => h.many n).congr
    (fun _ _ => rfl) (fun _ => Iff.rfl) fun e pre => ?_
  rw [badSeq_of_field]
  constructor
  · rintro ⟨n, xs, tail, hn, hlt, hv, hbad, rfl⟩
    exact ⟨n, _, hn, ⟨xs, tail, hlt, hv, hbad, rfl⟩, rfl⟩
  · rintro ⟨n, _, hn, ⟨xs, tail, hlt, hv, hbad, rfl⟩, rfl⟩
    exact ⟨n, xs, tail, hn, hlt, hv, hbad, rfl⟩

/-- A table of entries of fixed size. -/
theorem readTable_field (h : DecodesField item enc fun _ => True) :
    DecodesField (readTable item) (tableBytes enc) (fun xs => xs.length < 2 ^ 32) :=
  (readTable_decodes h).congr (fun _ _ => rfl)
    (fun _ => ⟨fun hlen => ⟨hlen, fun _ _ => trivial⟩, And.left⟩) fun _ _ =>
    ⟨False.elim, fun ⟨_, _, _, _, _, _, hbad, _⟩ => hbad⟩

end Table

/-! ## Prototypes -/

/-- Bytes that come before the nested prototypes. -/
def preludeBytes (inst : List Instruction) (constants : List ProtoConst)
    (upvalues : List Upvalue) : List Byte :=
  tableBytes Instruction.bytes inst ++ (tableBytes ProtoConst.bytes constants
    ++ tableBytes Upvalue.bytes upvalues)

/-- What `read_prototype` fails on, at a number of levels, besides the end of
the input: a constant of its own, or a nested prototype. -/
def BadProto : Nat → ReadError → List Byte → Prop
  | 0, e, pre => e = .depth ∧ pre = []
  | depth + 1, e, pre =>
      (∃ (inst : List Instruction) (tail : List Byte), inst.length < 2 ^ 32
        ∧ BadTable ProtoConst.bytes ProtoConst.Sized BadConst e tail
        ∧ pre = tableBytes Instruction.bytes inst ++ tail)
      ∨ ∃ (inst : List Instruction) (constants : List ProtoConst) (upvalues : List Upvalue)
          (tail : List Byte), inst.length < 2 ^ 32
        ∧ (constants.length < 2 ^ 32 ∧ ∀ v ∈ constants, v.Sized) ∧ upvalues.length < 2 ^ 32
        ∧ BadTable Proto.bytes (fun p => p.WellFormed ∧ p.depth ≤ depth) (BadProto depth) e tail
        ∧ pre = preludeBytes inst constants upvalues ++ tail

/-- The lines and the name, everything before them being known. -/
theorem readTail_decodes (inst : List Instruction) (constants : List ProtoConst)
    (upvalues : List Upvalue) (prot : List Proto) :
    DecodesField
      (do
        let name ← readString
        let lineinf ← readTable (BitVec.ofNat 32 <$> readUnsigned 4)
        pure (.mk inst constants upvalues prot name lineinf) : Reader Proto)
      (fun p => stringBytes p.name ++ tableBytes lineBytes p.lineinf)
      (fun p => p.prot = prot ∧ p.name.length < 2 ^ 32 ∧ p.lineinf.length < 2 ^ 32
        ∧ p.upvalues = upvalues ∧ p.constants = constants ∧ p.inst = inst) := by
  refine Decodes.field Proto.name readString_decodes (fun p =>
    (by tauto : _ ↔ p.name.length < 2 ^ 32 ∧ (p.lineinf.length < 2 ^ 32 ∧ p.prot = prot
      ∧ p.upvalues = upvalues ∧ p.constants = constants ∧ p.inst = inst))) fun name hname => ?_
  refine Decodes.last Proto.lineinf (readTable_field readLine_decodes) (fun l hl => ?_)
    fun p hp => ?_
  · exact ⟨⟨rfl, hl, rfl, rfl, rfl, rfl⟩, rfl⟩
  · obtain ⟨rfl, hl, rfl, rfl, rfl, rfl⟩ := hp
    obtain ⟨i, c, u, ps, n, l⟩ := p
    exact ⟨hl, rfl⟩

theorem Proto.bytes_eq (p : Proto) :
    p.bytes = tableBytes Instruction.bytes p.inst ++ (tableBytes ProtoConst.bytes p.constants
      ++ (tableBytes Upvalue.bytes p.upvalues ++ (tableBytes Proto.bytes p.prot
      ++ (stringBytes p.name ++ tableBytes lineBytes p.lineinf)))) := by
  obtain ⟨i, c, u, ps, n, l⟩ := p
  rw [Proto.bytes, bytesList_eq]
  rfl

theorem Proto.wellFormed_iff (p : Proto) :
    p.WellFormed ↔ p.inst.length < 2 ^ 32
      ∧ (p.constants.length < 2 ^ 32 ∧ ∀ v ∈ p.constants, v.Sized) ∧ p.upvalues.length < 2 ^ 32
      ∧ (p.prot.length < 2 ^ 32 ∧ ∀ q ∈ p.prot, q.WellFormed) ∧ p.name.length < 2 ^ 32
      ∧ p.lineinf.length < 2 ^ 32 := by
  obtain ⟨i, c, u, ps, n, l⟩ := p
  rw [Proto.WellFormed, wellFormedList_iff]
  rfl

theorem Proto.depth_le_succ (p : Proto) {d : Nat} :
    p.depth ≤ d + 1 ↔ ∀ q ∈ p.prot, q.depth ≤ d := by
  obtain ⟨i, c, u, ps, n, l⟩ := p
  rw [Proto.depth, Nat.add_le_add_iff_right, depthList_le]
  rfl

/-- `read_prototype` accepts exactly the layouts of well-formed prototypes. -/
theorem readPrototype_decodes : ∀ depth : Nat,
    Decodes Holds .eof (readPrototype depth) Proto.bytes
      (fun p => p.WellFormed ∧ p.depth ≤ depth) (BadProto depth)
  | 0 => by
      refine (Decodes.throw (fun p (hp : p.WellFormed ∧ p.depth ≤ 0) => ?_) Proto.bytes)
      obtain ⟨i, c, u, ps, n, l⟩ := p
      exact absurd hp.2 (by rw [Proto.depth]; omega)
  | depth + 1 => by
      have hprots := readTable_decodes (readPrototype_decodes depth)
      have h4 := fun inst constants upvalues => (hprots.bind Proto.prot fun prot _ =>
        readTail_decodes inst constants upvalues prot).congr (fun _ _ => rfl)
          (fun p => (by tauto : (p.upvalues = upvalues
            ∧ ((p.prot.length < 2 ^ 32 ∧ ∀ q ∈ p.prot, q.WellFormed ∧ q.depth ≤ depth)
              ∧ p.name.length < 2 ^ 32 ∧ p.lineinf.length < 2 ^ 32)
            ∧ p.constants = constants ∧ p.inst = inst) ↔ _)) fun _ _ => badSeq_of_rest.symm
      have h3 := fun inst constants => ((readTable_field readUpvalue_decodes).bind Proto.upvalues
        fun upvalues _ => h4 inst constants upvalues).congr (fun _ _ => rfl)
          (fun p => (by tauto : (p.constants = constants
            ∧ (p.upvalues.length < 2 ^ 32
              ∧ (p.prot.length < 2 ^ 32 ∧ ∀ q ∈ p.prot, q.WellFormed ∧ q.depth ≤ depth)
              ∧ p.name.length < 2 ^ 32 ∧ p.lineinf.length < 2 ^ 32)
            ∧ p.inst = inst) ↔ _)) fun _ _ => Iff.rfl
      have h2 := fun inst => ((readTable_decodes readConst_decodes).bind Proto.constants
        fun constants _ => h3 inst constants).congr (fun _ _ => rfl)
          (fun p => (by tauto : (p.inst = inst
            ∧ (p.constants.length < 2 ^ 32 ∧ ∀ v ∈ p.constants, v.Sized)
            ∧ p.upvalues.length < 2 ^ 32
            ∧ (p.prot.length < 2 ^ 32 ∧ ∀ q ∈ p.prot, q.WellFormed ∧ q.depth ≤ depth)
            ∧ p.name.length < 2 ^ 32 ∧ p.lineinf.length < 2 ^ 32) ↔ _)) fun _ _ => Iff.rfl
      have h1 := (readTable_field readInst_decodes).bind Proto.inst fun inst _ => h2 inst
      refine h1.congr (fun p _ => p.bytes_eq) (fun p => ?_) fun e pre => ?_
      · rw [p.wellFormed_iff, p.depth_le_succ]
        simp only [forall_and]
        tauto
      · rw [badSeq_of_field]
        constructor
        · rintro (⟨inst, tail, hi, hbad, rfl⟩ |
            ⟨inst, constants, upvalues, tail, hi, hc, hu, hbad, rfl⟩)
          · exact ⟨inst, tail, hi, Or.inl hbad, rfl⟩
          · refine ⟨inst, _, hi, Or.inr ⟨constants, _, hc, badSeq_of_field.mpr
              ⟨upvalues, tail, hu, hbad, rfl⟩, rfl⟩, ?_⟩
            simp only [preludeBytes, List.append_assoc]
        · rintro ⟨inst, _, hi, hbad | ⟨constants, _, hc, hbad, rfl⟩, rfl⟩
          · exact Or.inl ⟨inst, _, hi, hbad, rfl⟩
          · obtain ⟨upvalues, tail, hu, hprot, rfl⟩ := badSeq_of_field.mp hbad
            refine Or.inr ⟨inst, constants, upvalues, tail, hi, hc, hu, hprot, ?_⟩
            simp only [preludeBytes, List.append_assoc]

/-! ## Enough levels -/

theorem length_tableBytes {α : Type} (enc : α → List Byte) (xs : List α) :
    4 ≤ (tableBytes enc xs).length := by
  rw [tableBytes, List.length_append, length_leBytes]
  exact Nat.le_add_right ..

mutual

/-- Every level takes bytes. -/
theorem depth_le_length : ∀ p : Proto, p.depth ≤ p.bytes.length
  | .mk inst constants upvalues prot name lineinf => by
      have hprot := depthList_le_length prot
      have hinst := length_tableBytes Instruction.bytes inst
      rw [Proto.depth, Proto.bytes]
      simp only [List.length_append]
      omega

theorem depthList_le_length : ∀ ps : List Proto,
    Proto.depthList ps ≤ (Proto.bytesList ps).length
  | [] => Nat.le_refl 0
  | p :: ps => by
      have hp := depth_le_length p
      have hps := depthList_le_length ps
      rw [Proto.depthList, Proto.bytesList, List.length_append]
      omega

end

/-- The bytes of a prototype up to and with a constant tag that does not exist,
its own or that of a nested prototype. -/
inductive UnknownTag : List Byte → Prop
  | const {inst : List Instruction} {tail : List Byte} (hinst : inst.length < 2 ^ 32)
      (hbad : BadTable ProtoConst.bytes ProtoConst.Sized BadConst .assert tail) :
      UnknownTag (tableBytes Instruction.bytes inst ++ tail)
  | nested {inst : List Instruction} {constants : List ProtoConst} {upvalues : List Upvalue}
      {n : Nat} {ps : List Proto} {tail : List Byte} (hinst : inst.length < 2 ^ 32)
      (hconst : constants.length < 2 ^ 32 ∧ ∀ v ∈ constants, v.Sized)
      (hup : upvalues.length < 2 ^ 32) (hn : n < 2 ^ 32) (hlt : ps.length < n)
      (hps : ∀ p ∈ ps, p.WellFormed) (htail : UnknownTag tail) :
      UnknownTag (preludeBytes inst constants upvalues
        ++ (leBytes 4 n ++ (ps.flatMap Proto.bytes ++ tail)))

theorem UnknownTag.length {pre : List Byte} (h : UnknownTag pre) : 4 ≤ pre.length := by
  cases h with
  | @const inst tail _ _ =>
      have hinst := length_tableBytes Instruction.bytes inst
      rw [List.length_append]
      omega
  | nested =>
      simp only [List.length_append, length_leBytes]
      omega

theorem badConstTable_assert {e : ReadError} {pre : List Byte}
    (h : BadTable ProtoConst.bytes ProtoConst.Sized BadConst e pre) : e = .assert := by
  obtain ⟨_, _, _, -, -, -, hbad, -⟩ := h
  exact hbad.1

theorem BadProto.kind : ∀ {depth : Nat} {e : ReadError} {pre : List Byte},
    BadProto depth e pre → e = .assert ∨ e = .depth
  | 0, _, _, h => Or.inr h.1
  | _ + 1, _, _, .inl ⟨_, _, _, hbad, _⟩ => Or.inl (badConstTable_assert hbad)
  | _ + 1, _, _, .inr ⟨_, _, _, _, _, _, _, ⟨_, _, _, _, _, _, hbad, _⟩, _⟩ => hbad.kind

theorem BadProto.unknownTag : ∀ {depth : Nat} {pre : List Byte},
    BadProto depth .assert pre → UnknownTag pre
  | 0, _, h => nomatch h.1
  | depth + 1, _, .inl ⟨_, _, hinst, hbad, heq⟩ => heq ▸ .const hinst hbad
  | depth + 1, _, .inr ⟨_, _, _, _, hinst, hconst, hup, ⟨_, _, _, hn, hlt, hps, hbad, htail⟩,
      heq⟩ => by
      subst htail
      subst heq
      exact .nested hinst hconst hup hn hlt (fun p hp => (hps p hp).1) hbad.unknownTag

/-- The cut at `depth` levels is met by longer inputs only. -/
theorem BadProto.le_length : ∀ {depth : Nat} {pre : List Byte},
    BadProto depth .depth pre → depth ≤ pre.length
  | 0, _, _ => Nat.zero_le _
  | depth + 1, _, .inl ⟨_, _, _, hbad, _⟩ => nomatch badConstTable_assert hbad
  | depth + 1, _, .inr ⟨_, _, _, _, _, _, _, ⟨_, _, _, _, _, _, hbad, htail⟩, heq⟩ => by
      subst htail
      subst heq
      have hle := hbad.le_length
      simp only [List.length_append, length_leBytes]
      omega

theorem UnknownTag.badProto {pre : List Byte} (h : UnknownTag pre) :
    ∀ {depth : Nat}, pre.length < depth → BadProto depth .assert pre := by
  induction h with
  | const hinst hbad =>
      intro depth hlt
      obtain ⟨d, rfl⟩ : ∃ d, depth = d + 1 := ⟨depth - 1, by omega⟩
      exact Or.inl ⟨_, _, hinst, hbad, rfl⟩
  | @nested inst constants upvalues n ps tail hinst hconst hup hn hlt hps htail ih =>
      intro depth hdepth
      obtain ⟨d, rfl⟩ : ∃ d, depth = d + 1 := ⟨depth - 1, by omega⟩
      simp only [List.length_append, length_leBytes] at hdepth
      refine Or.inr ⟨inst, constants, upvalues, _, hinst, hconst, hup,
        ⟨n, ps, tail, hn, hlt, fun p hp => ⟨hps p hp, ?_⟩, ih (by omega), rfl⟩, rfl⟩
      have hlist := depthList_le.mp (Nat.le_refl _) p hp
      have hlen := depthList_le_length ps
      rw [bytesList_eq] at hlen
      omega

end Saurus
