import Mathlib.Algebra.GroupWithZero.Nat
import Saurus.Basis.Copy
import Saurus.Format.Accept

/-!
# The buffer behind `buffer_read`

`reader_buffer_t` as it is in memory: a block that grows with the chunks that
the callback delivers, and the part of it, from `offset` to `len`, that has
not been read. `ReaderBuffer` keeps of it only this part and the chunks to
come; `bufferRead_refines` says that it is all that counts. So the bytes that
are read do not depend on the chunks they come in (`chunking_irrelevant`).

`buffer_close` only gives memory back. An allocation that fails is an error
that leaves `buffer_read` without a status.
-/

namespace Saurus

open Basis

/-- `reader_buffer_t`, but for the callback. -/
structure BlockBuffer where
  buffer : List Byte
  offset : Nat
  len : Nat
  size : Nat

namespace BlockBuffer

/-- `buffer_open` -/
def bufferOpen : BlockBuffer := ⟨[], 0, 0, 0⟩

/-- What `su_allocate` says. -/
def outOfMemory : String := "Out of memory!"

/-- The loop that makes room for a chunk of `n` bytes. -/
def grow (alloc : Allocator Byte) (n : Nat) (b : BlockBuffer) : Outcome BlockBuffer :=
  if b.size < n then
    match alloc.resize b.buffer (b.size * 2 + 1) with
    | none => .raise outOfMemory
    | some buffer => grow alloc n { b with buffer, size := b.size * 2 + 1 }
  else .ok b
termination_by n - b.size

/-- The loop of `buffer_read`: `chunks` is what the callback has still to
deliver, and nothing is the end of input. The results are the status, the
destination, and what is left. -/
def readLoop (alloc : Allocator Byte) : List (List Byte) → BlockBuffer → List Byte → BitVec 32 →
    Nat → Outcome (Int × List Byte × BlockBuffer × List (List Byte))
  | chunks, b, dest, destOffset, numBytes => do
      let size := b.len - b.offset
      let num := if numBytes < size then numBytes else size
      let dest ← memcpy dest destOffset.toNat b.buffer b.offset num
      let b := { b with offset := b.offset + num }
      let destOffset := destOffset + BitVec.ofNat 32 num
      let numBytes := numBytes - num
      if numBytes = 0 then .ok (0, dest, b, chunks)
      else
        match chunks with
        | [] => .ok (-1, dest, b, [])
        | chunk :: chunks =>
            if chunk.length = 0 then .ok (-1, dest, b, chunks)
            else do
              let b ← grow alloc chunk.length b
              let buffer ← memcpy b.buffer 0 chunk 0 chunk.length
              readLoop alloc chunks { b with buffer, offset := 0, len := chunk.length } dest
                destOffset numBytes

/-- `buffer_read(s, buffer, dest, num_bytes)` into a destination of `num_bytes` bytes. -/
def bufferRead (alloc : Allocator Byte) (chunks : List (List Byte)) (b : BlockBuffer)
    (dest : List Byte) : Outcome (Int × List Byte × BlockBuffer × List (List Byte)) :=
  readLoop alloc chunks b dest 0#32 dest.length

/-- Reads one after the other, up to the first that fails: the bytes of each,
or nothing where its status is not 0. -/
def bufferReads (alloc : Allocator Byte) : List (List Byte) → BlockBuffer → List (List Byte) →
    Outcome (List (Option (List Byte)))
  | _, _, [] => .ok []
  | chunks, b, dest :: dests => do
      let (status, bytes, b, chunks) ← bufferRead alloc chunks b dest
      if status = 0 then do
        let rs ← bufferReads alloc chunks b dests
        .ok (some bytes :: rs)
      else .ok [none]

/-! ## The block -/

/-- What always holds of the block. Its size is one less than a power of two,
so the size of no chunk makes it wrap. -/
structure Sound (b : BlockBuffer) : Prop where
  offset_le : b.offset ≤ b.len
  len_le : b.len ≤ b.size
  length_buffer : b.buffer.length = b.size
  power : ∃ k, b.size + 1 = 2 ^ k

/-- The bytes that have been delivered and not read. -/
def data (b : BlockBuffer) : List Byte := (b.buffer.drop b.offset).take (b.len - b.offset)

theorem sound_bufferOpen : Sound bufferOpen := ⟨Nat.le_refl _, Nat.le_refl _, rfl, 0, rfl⟩

variable {b : BlockBuffer}

theorem Sound.length_data (hb : b.Sound) : b.data.length = b.len - b.offset := by
  have hlen := hb.len_le
  rw [data, List.length_take, List.length_drop, hb.length_buffer]
  omega

variable {alloc : Allocator Byte}

theorem grow_gives {n : Nat} (hlen : b.buffer.length = b.size) (hpow : ∃ k, b.size + 1 = 2 ^ k) :
    Outcome.Gives alloc.Refuses outOfMemory (grow alloc n b) fun b' =>
      n ≤ b'.size ∧ b'.buffer.length = b'.size ∧ ∃ k, b'.size + 1 = 2 ^ k := by
  fun_induction grow alloc n b with
  | case1 b hlt hnone => exact Or.inr ⟨⟨_, _, hnone⟩, rfl⟩
  | case2 b hlt buffer hsome ih =>
      obtain ⟨k, hk⟩ := hpow
      exact ih (alloc.length_resize hsome) ⟨k + 1, by rw [Nat.pow_succ]; dsimp only; omega⟩
  | case3 b hge => exact Outcome.gives_ok ⟨Nat.not_lt.mp hge, hlen, hpow⟩

/-! ## One read -/

/-- The result of a read is what the bytes alone say it is. -/
def ReadsAs (done : List Byte) (spec : Except ReadError (List Byte × ReaderBuffer))
    (r : Int × List Byte × BlockBuffer × List (List Byte)) : Prop :=
  match spec with
  | .ok (bytes, st) => r.1 = 0 ∧ r.2.1 = done ++ bytes ∧ r.2.2.1.Sound
      ∧ r.2.2.1.data = st.data ∧ r.2.2.2 = st.chunks
  | .error _ => r.1 = -1

theorem Sound.advance (hb : b.Sound) {n : Nat} (hn : n ≤ b.data.length) :
    Sound { b with offset := b.offset + n }
      ∧ data { b with offset := b.offset + n } = b.data.drop n := by
  have hoff := hb.offset_le
  rw [hb.length_data] at hn
  refine ⟨⟨by dsimp only; omega, hb.len_le, hb.length_buffer, hb.power⟩, ?_⟩
  rw [data, data, List.drop_take, List.drop_drop, Nat.sub_sub]

/-- A turn of the loop copies what there is of what is wanted. -/
theorem Sound.copy (hb : b.Sound) {done rest : List Byte} {n : Nat} (hn : n ≤ b.data.length)
    (hrest : n ≤ rest.length) :
    memcpy (done ++ rest) done.length b.buffer b.offset n
      = .ok (done ++ b.data.take n ++ rest.drop n) := by
  have hoff := hb.offset_le
  have hlen := hb.len_le
  have hsize := hb.length_buffer
  rw [hb.length_data] at hn
  rw [memcpy_append hrest (by omega), data, List.take_take, Nat.min_eq_left hn]

/-- The buffer with a chunk in it that nothing of has been read. -/
def filled (b : BlockBuffer) (chunk : List Byte) : BlockBuffer :=
  ⟨chunk ++ b.buffer.drop chunk.length, 0, chunk.length, b.size⟩

theorem sound_filled {chunk : List Byte} (hchunk : chunk.length ≤ b.size)
    (hlen : b.buffer.length = b.size) (hpow : ∃ k, b.size + 1 = 2 ^ k) :
    (b.filled chunk).Sound where
  offset_le := Nat.zero_le _
  len_le := hchunk
  length_buffer := by
    rw [filled, List.length_append, List.length_drop, hlen]
    dsimp only
    omega
  power := hpow

@[simp] theorem data_filled (chunk : List Byte) : (b.filled chunk).data = chunk := by
  rw [filled, data, List.drop_zero, Nat.sub_zero, List.take_left]

section Loop

variable {chunks : List (List Byte)} {done rest : List Byte} {offset : BitVec 32}

/-- The last turn of a read, for which the block has enough. -/
theorem readLoop_last (hb : b.Sound) (hoffset : offset.toNat = done.length)
    (hle : rest.length ≤ b.data.length) :
    readLoop alloc chunks b (done ++ rest) offset rest.length
      = .ok (0, done ++ b.data.take rest.length, { b with offset := b.offset + rest.length },
          chunks) := by
  have hnum : (if rest.length < b.data.length then rest.length else b.data.length)
      = rest.length := by split_ifs <;> omega
  rw [readLoop, ← hb.length_data, hoffset, hnum, hb.copy hle (Nat.le_refl _), Outcome.ok_bind,
    Nat.sub_self, if_pos rfl, List.drop_length, List.append_nil]

/-- A turn that takes all there is and needs a chunk. -/
theorem readLoop_more (hb : b.Sound) (hoffset : offset.toNat = done.length)
    (hlt : b.data.length < rest.length) :
    readLoop alloc chunks b (done ++ rest) offset rest.length
      = match chunks with
        | [] => .ok (-1, done ++ b.data ++ rest.drop b.data.length,
            { b with offset := b.offset + b.data.length }, [])
        | chunk :: chunks =>
            if chunk.length = 0 then
              .ok (-1, done ++ b.data ++ rest.drop b.data.length,
                { b with offset := b.offset + b.data.length }, chunks)
            else grow alloc chunk.length { b with offset := b.offset + b.data.length } >>= fun b' =>
              memcpy b'.buffer 0 chunk 0 chunk.length >>= fun buffer =>
                readLoop alloc chunks ⟨buffer, 0, chunk.length, b'.size⟩
                  (done ++ b.data ++ rest.drop b.data.length)
                  (offset + BitVec.ofNat 32 b.data.length) (rest.length - b.data.length) := by
  have hnum : (if rest.length < b.data.length then rest.length else b.data.length)
      = b.data.length := by split_ifs <;> omega
  rw [readLoop, ← hb.length_data, hoffset, hnum, hb.copy (Nat.le_refl _) (by omega),
    Outcome.ok_bind, if_neg (by omega), List.take_length]

/-- The loop reads what `bufferFill` says, from the block and the chunks to come. -/
theorem readLoop_gives (hb : b.Sound) (hoffset : offset.toNat = done.length)
    (hfits : done.length + rest.length ≤ 2 ^ 32) :
    Outcome.Gives alloc.Refuses outOfMemory
      (readLoop alloc chunks b (done ++ rest) offset rest.length)
      (ReadsAs done (bufferFill chunks b.data rest.length)) := by
  induction chunks generalizing b done rest offset with
  | nil =>
      rw [bufferFill]
      by_cases hle : rest.length ≤ b.data.length
      · obtain ⟨hsound, hdata⟩ := hb.advance hle
        rw [readLoop_last hb hoffset hle, if_pos hle]
        exact Outcome.gives_ok ⟨rfl, rfl, hsound, hdata, rfl⟩
      · rw [readLoop_more hb hoffset (Nat.not_le.mp hle), if_neg hle]
        exact Outcome.gives_ok rfl
  | cons chunk chunks ih =>
      rw [bufferFill]
      by_cases hle : rest.length ≤ b.data.length
      · obtain ⟨hsound, hdata⟩ := hb.advance hle
        rw [readLoop_last hb hoffset hle, if_pos hle]
        exact Outcome.gives_ok ⟨rfl, rfl, hsound, hdata, rfl⟩
      · have hlt := Nat.not_le.mp hle
        rw [readLoop_more hb hoffset hlt, if_neg hle]
        dsimp only
        by_cases hempty : chunk = []
        · rw [if_pos (List.length_eq_zero_iff.mpr hempty), if_pos hempty]
          exact Outcome.gives_ok rfl
        · rw [if_neg (mt List.length_eq_zero_iff.mp hempty), if_neg hempty]
          refine (grow_gives (b := { b with offset := b.offset + b.data.length })
            hb.length_buffer hb.power).bind ?_
          rintro b' ⟨hchunk, hlen, hpow⟩
          rw [memcpy_front (hlen ▸ hchunk), Outcome.ok_bind]
          have hoffset' : (offset + BitVec.ofNat 32 b.data.length).toNat
              = (done ++ b.data).length := by
            rw [BitVec.toNat_add, BitVec.toNat_ofNat, hoffset, List.length_append]
            omega
          have hfits' : (done ++ b.data).length + (rest.drop b.data.length).length ≤ 2 ^ 32 := by
            rw [List.length_append, List.length_drop]
            omega
          have hrun := ih (sound_filled hchunk hlen hpow) hoffset' hfits'
          rw [data_filled, List.length_drop] at hrun
          refine hrun.imp fun r hr => ?_
          cases hfill : bufferFill chunks chunk (rest.length - b.data.length) with
          | error e =>
              rw [hfill] at hr
              exact hr
          | ok fill =>
              rw [hfill] at hr
              obtain ⟨hstatus, hbytes, hkept⟩ := hr
              exact ⟨hstatus, by rw [hbytes, List.append_assoc], hkept⟩

end Loop

/-- `buffer_read` on the block refines the one on bytes. -/
theorem bufferRead_refines {chunks : List (List Byte)} (hb : b.Sound) {dest : List Byte}
    (hfits : dest.length ≤ 2 ^ 32) :
    Outcome.Gives alloc.Refuses outOfMemory (bufferRead alloc chunks b dest)
      (ReadsAs [] (Saurus.bufferRead dest.length ⟨b.data, chunks⟩)) := by
  have hfits' : ([] : List Byte).length + dest.length ≤ 2 ^ 32 := (Nat.zero_add _).symm ▸ hfits
  exact readLoop_gives hb rfl hfits'

/-! ## Runs of reads -/

/-- What reads of these sizes give of so many bytes, up to the first that fails. -/
def answers (bs : List Byte) : List Nat → List (Option (List Byte))
  | [] => []
  | n :: ns => if n ≤ bs.length then some (bs.take n) :: answers (bs.drop n) ns else [none]

/-- A read gets its bytes if and only if they are there behind those before. -/
theorem answers_iff {ns : List Nat} {k : Nat} (hk : k < ns.length) (bs bytes : List Byte) :
    (answers bs ns)[k]? = some (some bytes)
      ↔ (ns.take (k + 1)).sum ≤ bs.length ∧ bytes = (bs.drop (ns.take k).sum).take ns[k] := by
  induction ns generalizing bs k with
  | nil => cases hk
  | cons n ns ih =>
      rw [answers, List.take_succ_cons, List.sum_cons]
      by_cases hle : n ≤ bs.length
      · rw [if_pos hle]
        cases k with
        | zero =>
            rw [List.take_zero, List.take_zero, List.sum_nil, Nat.add_zero, List.drop_zero]
            simp [hle, eq_comm]
        | succ k =>
            rw [List.getElem?_cons_succ, ih (Nat.lt_of_succ_lt_succ hk), List.length_drop,
              List.take_succ_cons, List.sum_cons, List.drop_drop, List.getElem_cons_succ]
            refine and_congr_left fun _ => ?_
            omega
      · rw [if_neg hle]
        refine iff_of_false ?_ (fun h => hle (Nat.le_trans (Nat.le_add_right ..) h.1))
        cases k <;> simp

/-- Reads give what the bytes to come say, however they are cut into chunks. -/
theorem bufferReads_gives {chunks : List (List Byte)} (hb : b.Sound) {bs : List Byte}
    (hholds : Holds ⟨b.data, chunks⟩ bs) {dests : List (List Byte)}
    (hfits : ∀ dest ∈ dests, dest.length ≤ 2 ^ 32) :
    Outcome.Gives alloc.Refuses outOfMemory (bufferReads alloc chunks b dests)
      fun rs => rs = answers bs (dests.map List.length) := by
  induction dests generalizing b chunks bs with
  | nil => exact Outcome.gives_ok rfl
  | cons dest dests ih =>
      obtain ⟨hdest, hdests⟩ := List.forall_mem_cons.mp hfits
      rw [bufferReads, List.map_cons, answers]
      refine (bufferRead_refines hb hdest).bind ?_
      rintro ⟨status, bytes, b', chunks'⟩ hread
      dsimp only
      by_cases hle : dest.length ≤ bs.length
      · have hsplit : Holds ⟨b.data, chunks⟩ (bs.take dest.length ++ bs.drop dest.length) :=
          (List.take_append_drop ..).symm ▸ hholds
        obtain ⟨st, hfill, hst⟩ := bufferRead_reads (bs.take dest.length) _ _ hsplit
        rw [List.length_take, Nat.min_eq_left hle] at hfill
        rw [hfill] at hread
        obtain ⟨rfl, hbytes, hsound, hdata, hchunks⟩ := hread
        have hst' : Holds ⟨b'.data, chunks'⟩ (bs.drop dest.length) := by
          rw [show b'.data = st.data from hdata, show chunks' = st.chunks from hchunks]
          exact hst
        rw [if_pos rfl, if_pos hle]
        refine (ih hsound hst' hdests).bind ?_
        rintro rs rfl
        exact Outcome.gives_ok (by rw [show bytes = bs.take dest.length from hbytes])
      · have hshort : Saurus.bufferRead dest.length ⟨b.data, chunks⟩ = .error .eof :=
          bufferFill_short (by rw [hholds.1]; omega)
        rw [hshort] at hread
        rw [show status = -1 from hread, if_neg (by decide), if_neg hle]
        exact Outcome.gives_ok rfl

/-- Reads from a buffer just opened are the same however a byte string is cut
into chunks. The sizes that are read fit the `unsigned` that counts in a
destination: `READ` reads the fields of a prototype, and `read_string` as many
bytes as an `unsigned` says. -/
theorem chunking_irrelevant (alloc alloc' : Allocator Byte) {bs : List Byte}
    {chunks chunks' dests dests' : List (List Byte)} {sizes : List Nat}
    (hchunks : chunks.flatten = bs) (hne : ∀ c ∈ chunks, c ≠ [])
    (hchunks' : chunks'.flatten = bs) (hne' : ∀ c ∈ chunks', c ≠ [])
    (hdests : dests.map List.length = sizes) (hdests' : dests'.map List.length = sizes)
    (hfits : ∀ n ∈ sizes, n ≤ 2 ^ 32) :
    ∃ rs, (bufferReads alloc chunks bufferOpen dests = .ok rs
        ∨ alloc.Refuses ∧ bufferReads alloc chunks bufferOpen dests = .raise outOfMemory)
      ∧ (bufferReads alloc' chunks' bufferOpen dests' = .ok rs
        ∨ alloc'.Refuses ∧ bufferReads alloc' chunks' bufferOpen dests' = .raise outOfMemory)
      ∧ ∀ k (hk : k < sizes.length),
        ((∃ bytes, rs[k]? = some (some bytes)) ↔ (sizes.take (k + 1)).sum ≤ bs.length)
        ∧ ∀ bytes, rs[k]? = some (some bytes) →
          bytes = (bs.drop (sizes.take k).sum).take sizes[k] := by
  have hrun : ∀ (alloc : Allocator Byte) {chunks dests : List (List Byte)}, chunks.flatten = bs →
      (∀ c ∈ chunks, c ≠ []) → dests.map List.length = sizes →
      bufferReads alloc chunks bufferOpen dests = .ok (answers bs sizes)
        ∨ alloc.Refuses ∧ bufferReads alloc chunks bufferOpen dests = .raise outOfMemory := by
    intro alloc chunks dests hchunks hne hdests
    have hlengths : ∀ dest ∈ dests, dest.length ≤ 2 ^ 32 := fun dest hdest =>
      hfits _ (hdests ▸ List.mem_map_of_mem hdest)
    refine (bufferReads_gives sound_bufferOpen ⟨hchunks, hne⟩ hlengths).imp_left ?_
    rintro ⟨rs, hok, hrs⟩
    rw [hok, hrs, hdests]
  refine ⟨answers bs sizes, hrun alloc hchunks hne hdests, hrun alloc' hchunks' hne' hdests',
    fun k hk => ⟨?_, fun bytes h => ((answers_iff hk bs bytes).mp h).2⟩⟩
  exact ⟨fun ⟨bytes, h⟩ => ((answers_iff hk bs bytes).mp h).1, fun h =>
    ⟨_, (answers_iff hk bs _).mpr ⟨h, rfl⟩⟩⟩

/-- Memory that is never refused, with whatever was in it. -/
def plenty : Allocator Byte where
  resize block n := some (block.take n ++ List.replicate (n - block.length) 0xee#8)
  length_resize := by
    rintro block block' n ⟨⟩
    rw [List.length_append, List.length_take, List.length_replicate]
    omega

theorem chunking_abc :
    ∃ rs, (bufferReads plenty [[1#8], [2#8, 3#8]] bufferOpen [[0#8, 0#8], [0#8, 0#8]] = .ok rs
        ∨ plenty.Refuses
          ∧ bufferReads plenty [[1#8], [2#8, 3#8]] bufferOpen [[0#8, 0#8], [0#8, 0#8]]
            = .raise outOfMemory)
      ∧ (bufferReads plenty [[1#8, 2#8, 3#8]] bufferOpen [[0#8, 0#8], [0#8, 0#8]] = .ok rs
        ∨ plenty.Refuses
          ∧ bufferReads plenty [[1#8, 2#8, 3#8]] bufferOpen [[0#8, 0#8], [0#8, 0#8]]
            = .raise outOfMemory)
      ∧ ∀ k (hk : k < [2, 2].length),
        ((∃ bytes, rs[k]? = some (some bytes)) ↔ ([2, 2].take (k + 1)).sum ≤ [1#8, 2#8, 3#8].length)
        ∧ ∀ bytes, rs[k]? = some (some bytes) →
          bytes = ([1#8, 2#8, 3#8].drop ([2, 2].take k).sum).take [2, 2][k] :=
  chunking_irrelevant plenty plenty rfl (by decide) rfl (by decide) rfl rfl (by decide)

end BlockBuffer

end Saurus
