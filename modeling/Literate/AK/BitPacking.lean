import Literate.AK.BitStream
import Mathlib.Algebra.Group.Nat.Defs

/-!
# AK: what the output bit stream writes

The bits of an `OutputBitStream` are those of the bytes it has delivered and of the byte
it holds.  Every operation appends to them: `write_bits` the low bits of its argument,
least significant bit first, on whichever of its paths, and `align_to_byte_boundary`
zeros up to a whole byte.
-/

namespace Literate.AK

open Foundation List BitVec
open Nat (mod_self mul_mod_right zero_lt_succ)

namespace OutputBitStream

/-- The bits written so far. -/
def content (s : OutputBitStream) : List Bool :=
  unpack s.stream.bytes ++
    match s.nextByte with
    | some byte => slice byte 0 s.bitOffset
    | none => []

/-- The byte that is held has room, and zeros above its bits. -/
structure Holds (s : OutputBitStream) : Prop where
  noError : s.stream.anyError = false
  offset : s.nextByte ≠ none → s.bitOffset < 8
  zeros : ∀ byte, s.nextByte = some byte → ∀ i, s.bitOffset ≤ i → byte.getLsbD i = false

/-- Between two operations a byte is only held when it has a bit. -/
structure Whole (s : OutputBitStream) : Prop where
  holds : s.Holds
  positive : s.nextByte ≠ none → 0 < s.bitOffset

theorem new_whole {stream : OutputStream} (h : stream.anyError = false) : (new stream).Whole :=
  ⟨⟨h, nofun, nofun⟩, nofun⟩

variable {s : OutputBitStream}

theorem content_none (h : s.nextByte = none) : s.content = unpack s.stream.bytes := by
  rw [OutputBitStream.content, h, append_nil]

theorem content_some {byte : BitVec 8} (h : s.nextByte = some byte) :
    s.content = unpack s.stream.bytes ++ slice byte 0 s.bitOffset := by
  rw [OutputBitStream.content, h]

theorem content_write (h : s.nextByte = none) (bytes : List (BitVec 8)) :
    (s.write bytes).content = s.content ++ unpack bytes := by
  rw [content_none h, content_none (s := s.write bytes) h, write, OutputStream.write, unpack_append]

theorem Holds.write (h : s.Holds) (hnone : s.nextByte = none) (bytes : List (BitVec 8)) :
    (s.write bytes).Holds := by
  refine ⟨h.noError, fun hsome => absurd hnone hsome, fun byte hbyte => ?_⟩
  have hsome : s.nextByte = some byte := hbyte
  rw [hnone] at hsome
  cases hsome

/-! ## The branches of the loop -/

/-- `(bits >> n) & 1`. -/
theorem getLsbD_shift_and_one {w : Nat} (word : BitVec w) (n i : Nat) (hw : 0 < w) :
    ((word >>> n) &&& 1#w).getLsbD i = (decide (i = 0) && word.getLsbD n) := by
  rw [getLsbD_and, getLsbD_one, getLsbD_ushiftRight]
  cases i with
  | zero => simp [hw]
  | succ i => simp

theorem getLsbD_or_bit (word : BitVec 32) (byte : BitVec 8) {n o : Nat} (ho : o < 8)
    (hzero : byte.getLsbD o = false) (i : Nat) :
    (byte ||| (((word >>> n) &&& 1#32) <<< o).setWidth 8).getLsbD i =
      if i = o then word.getLsbD n else byte.getLsbD i := by
  rw [getLsbD_or, getLsbD_setWidth, getLsbD_shiftLeft,
    getLsbD_shift_and_one word n _ (by decide)]
  by_cases hi : i = o
  · subst hi
    have hwide : i < 32 := by omega
    rw [if_pos rfl, hzero]
    simp [ho, hwide]
  · rw [if_neg hi]
    by_cases hlt : i < o
    · simp [hlt]
    · have hne : i - o ≠ 0 := by omega
      simp [hne]

theorem writeNextBit_spec {word : BitVec 32} {nWritten : Nat} {byte : BitVec 8} (h : s.Holds)
    (hbyte : s.nextByte = some byte) : (writeNextBit word nWritten byte s).Holds ∧
      (writeNextBit word nWritten byte s).content = s.content ++ [word.getLsbD nWritten] ∧
      0 < (writeNextBit word nWritten byte s).bitOffset := by
  have hoffset : s.bitOffset < 8 := h.offset (by simp [hbyte])
  have hzeros := h.zeros byte hbyte
  have hbit : ∀ i, (byte ||| (((word >>> nWritten) &&& 1#32) <<< s.bitOffset).setWidth 8).getLsbD i =
      if i = s.bitOffset then word.getLsbD nWritten else byte.getLsbD i :=
    getLsbD_or_bit word byte hoffset (hzeros s.bitOffset (Nat.le_refl _))
  have hslice : slice (byte ||| (((word >>> nWritten) &&& 1#32) <<< s.bitOffset).setWidth 8) 0
      (s.bitOffset + 1) = slice byte 0 s.bitOffset ++ [word.getLsbD nWritten] := by
    rw [slice_succ, Nat.zero_add, hbit, if_pos rfl]
    congr 1
    refine slice_congr fun i hi => ?_
    rw [Nat.zero_add, hbit, if_neg (by omega)]
  rw [content_some hbyte]
  by_cases hlast : s.bitOffset = 7
  · have hwhole := hslice
    rw [hlast] at hwhole
    simp only [writeNextBit, if_pos hlast]
    refine ⟨⟨h.noError, fun hsome => absurd rfl hsome, nofun⟩, ?_, by omega⟩
    rw [content_none rfl]
    simp only [write, OutputStream.write, unpack_append, unpack_cons, unpack_nil, append_nil,
      List.append_assoc]
    rw [hlast]
    exact congrArg _ hwhole
  · simp only [writeNextBit, if_neg hlast]
    refine ⟨⟨h.noError, fun _ => ?_, fun b hb i hi => ?_⟩, ?_, by omega⟩
    · simp only
      omega
    · cases hb
      simp only at hi
      rw [hbit, if_neg (by omega)]
      exact hzeros i (by omega)
    · rw [content_some rfl]
      simp only [hslice, List.append_assoc]

theorem beginByte_spec (h : s.Holds) (hnone : s.nextByte = none) :
    (beginByte s).Holds ∧ (beginByte s).content = s.content := by
  refine ⟨⟨h.noError, fun _ => zero_lt_succ 7, fun byte hbyte i _ => ?_⟩, ?_⟩
  · cases hbyte
    exact getLsbD_zero
  · rw [content_none hnone, content_some rfl]
    exact append_nil _

section

variable (word : BitVec 32)

theorem slice_shift_and {m n : Nat} (mask : BitVec 32) (hmask : ∀ i < m, mask.getLsbD i = true) :
    slice (((word >>> n) &&& mask).setWidth m) 0 m = slice word n m := by
  refine slice_congr fun i hi => ?_
  simp [hi, hmask i hi]

theorem slice_word (n : Nat) :
    unpack (littleEndian 2 (((word >>> n) &&& 0xFFFF#32).setWidth 16)) = slice word n 16 := by
  rw [unpack_littleEndian]
  exact slice_shift_and word 0xFFFF#32 (by decide)

theorem slice_byte (n : Nat) : unpack [((word >>> n) &&& 0xFF#32).setWidth 8] = slice word n 8 := by
  rw [unpack_cons, unpack_nil, append_nil]
  exact slice_shift_and word 0xFF#32 (by decide)

/-! ## Operations -/

/-- What is left of the word after the part that a branch has written. -/
theorem slice_split {count n m : Nat} (h : m ≤ count - n) :
    slice word n (count - n) = slice word n m ++ slice word (n + m) (count - (n + m)) := by
  rw [← slice_add]
  congr 1
  omega

theorem writeLoop_spec (count nWritten : Nat) (h : s.Holds)
    (hpositive : s.nextByte ≠ none → 0 < s.bitOffset ∨ nWritten < count) :
    (writeLoop word count nWritten s).Whole ∧
      (writeLoop word count nWritten s).content =
        s.content ++ slice word nWritten (count - nWritten) := by
  fun_induction writeLoop word count nWritten s with
  | case1 n s hlt herror =>
    rw [h.noError] at herror
    cases herror
  | case2 n s hlt hne byte hbyte ih =>
    obtain ⟨hholds, hbits, hoffset⟩ := @writeNextBit_spec s word n byte h hbyte
    obtain ⟨hwhole, hrest⟩ := ih hholds fun _ => .inl hoffset
    refine ⟨hwhole, ?_⟩
    have hone : 1 ≤ count - n := by omega
    rw [hrest, hbits, slice_split word hone, List.append_assoc]
    rfl
  | case3 n s hlt hne hnone hcount ih =>
    obtain ⟨hwhole, hrest⟩ := ih (h.write hnone _) fun hsome => absurd hnone hsome
    refine ⟨hwhole, ?_⟩
    rw [hrest, content_write hnone, slice_word, slice_split word hcount, List.append_assoc]
  | case4 n s hlt hne hnone hless hcount ih =>
    obtain ⟨hwhole, hrest⟩ := ih (h.write hnone _) fun hsome => absurd hnone hsome
    refine ⟨hwhole, ?_⟩
    rw [hrest, content_write hnone, slice_byte, slice_split word hcount, List.append_assoc]
  | case5 n s hlt hne hnone hless hless' ih =>
    obtain ⟨hholds, hbits⟩ := beginByte_spec h hnone
    obtain ⟨hwhole, hrest⟩ := ih hholds fun _ => .inr hlt
    exact ⟨hwhole, hbits ▸ hrest⟩
  | case6 n s hge =>
    refine ⟨⟨h, fun hsome => (hpositive hsome).resolve_right hge⟩, ?_⟩
    rw [Nat.sub_eq_zero_of_le (by omega), slice_zero, append_nil]

theorem writeBits_spec {count : Nat} (hcount : count ≤ 32) (h : s.Whole) :
    ∃ s', writeBits word count s = some s' ∧ s'.Whole ∧
      s'.content = s.content ++ slice word 0 count := by
  rw [writeBits, if_pos hcount]
  split
  · next hfast =>
    refine ⟨_, rfl, ⟨h.holds.write hfast.2 _, fun hsome => absurd hfast.2 hsome⟩, ?_⟩
    rw [content_write hfast.2, unpack_littleEndian, hfast.1]
  · obtain ⟨hwhole, hbits⟩ := writeLoop_spec word count 0 h.holds fun hsome =>
      .inl (h.positive hsome)
    exact ⟨_, rfl, hwhole, hbits⟩

end

theorem writeBit_spec (bit : Bool) (h : s.Whole) :
    ∃ s', writeBit bit s = some s' ∧ s'.Whole ∧ s'.content = s.content ++ [bit] := by
  obtain ⟨s', hs', hwhole, hbits⟩ := @writeBits_spec s
    ((BitVec.ofBool bit).setWidth 32) 1 (by decide) h
  refine ⟨s', hs', hwhole, hbits.trans ?_⟩
  cases bit <;> rfl

theorem writeBitwise_spec (word : BitVec 32) (count nWritten : Nat) (h : s.Holds)
    (hpositive : s.nextByte ≠ none → 0 < s.bitOffset ∨ nWritten < count) :
    (writeBitwise word count nWritten s).Whole ∧
      (writeBitwise word count nWritten s).content =
        s.content ++ slice word nWritten (count - nWritten) := by
  fun_induction writeBitwise word count nWritten s with
  | case1 n s hlt herror =>
    rw [h.noError] at herror
    cases herror
  | case2 n s hlt hne byte hbyte ih =>
    obtain ⟨hholds, hbits, hoffset⟩ := @writeNextBit_spec s word n byte h hbyte
    obtain ⟨hwhole, hrest⟩ := ih hholds fun _ => .inl hoffset
    refine ⟨hwhole, ?_⟩
    have hone : 1 ≤ count - n := by omega
    rw [hrest, hbits, slice_split word hone, List.append_assoc]
    rfl
  | case3 n s hlt hne hnone ih =>
    obtain ⟨hholds, hbits⟩ := beginByte_spec h hnone
    obtain ⟨hwhole, hrest⟩ := ih hholds fun _ => .inr hlt
    exact ⟨hwhole, hbits ▸ hrest⟩
  | case4 n s hge =>
    refine ⟨⟨h, fun hsome => (hpositive hsome).resolve_right hge⟩, ?_⟩
    rw [Nat.sub_eq_zero_of_le (by omega), slice_zero, append_nil]

/-- Zeros up to a multiple of eight. -/
def padded (l : List Bool) : List Bool := l ++ List.replicate ((8 - l.length % 8) % 8) false

theorem alignToByteBoundary_spec (h : s.Whole) :
    (alignToByteBoundary s).Whole ∧ (alignToByteBoundary s).nextByte = none ∧
      (alignToByteBoundary s).content = padded s.content := by
  rw [alignToByteBoundary]
  cases hbyte : s.nextByte with
  | none =>
    refine ⟨h, hbyte, ?_⟩
    simp only [padded, content_none hbyte, length_unpack, mul_mod_right, Nat.sub_zero,
      mod_self, List.replicate_zero, append_nil]
  | some byte =>
    have hoffset := h.holds.offset (by simp [hbyte])
    have hpositive := h.positive (by simp [hbyte])
    have hzeros : slice byte s.bitOffset (8 - s.bitOffset) =
        List.replicate (8 - s.bitOffset) false := by
      refine eq_replicate_iff.mpr ⟨length_slice _ _ _, fun b hb => ?_⟩
      obtain ⟨i, -, rfl⟩ := List.mem_map.mp hb
      exact h.holds.zeros byte hbyte _ (Nat.le_add_right _ _)
    have hsplit : bits byte = slice byte 0 s.bitOffset ++
        List.replicate (8 - s.bitOffset) false := by
      have hadd := slice_add byte 0 s.bitOffset (8 - s.bitOffset)
      rw [Nat.zero_add, hzeros, Nat.add_sub_cancel' (Nat.le_of_lt hoffset)] at hadd
      exact hadd
    have hmod : (8 * s.stream.bytes.length + s.bitOffset) % 8 = s.bitOffset := by omega
    have hpad : (8 - s.bitOffset) % 8 = 8 - s.bitOffset := by omega
    refine ⟨⟨⟨h.holds.noError, fun hsome => absurd rfl hsome, nofun⟩,
      fun hsome => absurd rfl hsome⟩, rfl, ?_⟩
    rw [content_none rfl, content_some hbyte, padded, length_append, length_unpack,
      length_slice, hmod, hpad, List.append_assoc, ← hsplit]
    simp [write, OutputStream.write]

/-- What was delivered and what is held are determined by the content. -/
theorem eq_of_content_eq {t : OutputBitStream} (hs : s.Whole) (ht : t.Whole)
    (h : s.content = t.content) : s.stream.bytes = t.stream.bytes ∧ s.nextByte = t.nextByte ∧
      (s.nextByte ≠ none → s.bitOffset = t.bitOffset) := by
  cases hbyte : s.nextByte with
  | none =>
    cases hbyte' : t.nextByte with
    | none =>
      rw [content_none hbyte, content_none hbyte'] at h
      obtain ⟨hbytes, -⟩ := @unpack_injective s.stream.bytes t.stream.bytes [] []
        (by decide) (by decide) (by simpa using h)
      exact ⟨hbytes, rfl, fun hsome => absurd rfl hsome⟩
    | some byte' =>
      have hpositive := ht.positive (by simp [hbyte'])
      have hoffset := ht.holds.offset (by simp [hbyte'])
      rw [content_none hbyte, content_some hbyte'] at h
      have hlength := congrArg List.length h
      simp only [length_append, length_unpack, length_slice] at hlength
      omega
  | some byte =>
    have hoffset := hs.holds.offset (by simp [hbyte])
    have hpositive := hs.positive (by simp [hbyte])
    cases hbyte' : t.nextByte with
    | none =>
      rw [content_some hbyte, content_none hbyte'] at h
      have hlength := congrArg List.length h
      simp only [length_append, length_unpack, length_slice] at hlength
      omega
    | some byte' =>
      have hoffset' := ht.holds.offset (by simp [hbyte'])
      rw [content_some hbyte, content_some hbyte'] at h
      obtain ⟨hbytes, hslice⟩ := unpack_injective (by simpa using hoffset)
        (by simpa using hoffset') h
      have hsame : s.bitOffset = t.bitOffset := by simpa using congrArg List.length hslice
      refine ⟨hbytes, congrArg some (eq_of_getLsbD_eq fun i hi => ?_), fun _ => hsame⟩
      by_cases hlt : i < s.bitOffset
      · rw [← hsame] at hslice
        simpa using getLsbD_of_slice_eq hslice hlt
      · rw [hs.holds.zeros byte hbyte i (by omega), ht.holds.zeros byte' hbyte' i (by omega)]

/-! ## Sequences of operations -/

inductive Op where
  | writeBits (bits : BitVec 32) (count : Nat)
  | writeBit (bit : Bool)
  | alignToByteBoundary
  deriving DecidableEq, Repr

/-- The count is at most that of the word, and the value fits. -/
def Op.Valid : Op → Prop
  | .writeBits bits count => count ≤ 32 ∧ bits.toNat < 2 ^ count
  | _ => True

instance (op : Op) : Decidable op.Valid := by
  cases op <;> simp only [Op.Valid] <;> infer_instance

def Op.apply : Op → OutputBitStream → Option OutputBitStream
  | .writeBits bits count, s => OutputBitStream.writeBits bits count s
  | .writeBit bit, s => OutputBitStream.writeBit bit s
  | .alignToByteBoundary, s => some (OutputBitStream.alignToByteBoundary s)

/-- The same without the fast paths. -/
def Op.applyBitwise : Op → OutputBitStream → OutputBitStream
  | .writeBits bits count, s => writeBitwise bits count 0 s
  | .writeBit bit, s => writeBitwise ((BitVec.ofBool bit).setWidth 32) 1 0 s
  | .alignToByteBoundary, s => OutputBitStream.alignToByteBoundary s

/-- What an operation appends to the bits before it. -/
def Op.packed : List Bool → Op → List Bool
  | l, .writeBits bits count => l ++ slice bits 0 count
  | l, .writeBit bit => l ++ [bit]
  | l, .alignToByteBoundary => padded l

theorem Op.apply_spec {op : Op} (hop : op.Valid) (h : s.Whole) :
    ∃ s', op.apply s = some s' ∧ s'.Whole ∧ s'.content = op.packed s.content := by
  cases op with
  | writeBits bits count => exact writeBits_spec bits hop.1 h
  | writeBit bit => exact writeBit_spec bit h
  | alignToByteBoundary =>
    obtain ⟨hwhole, -, hcontent⟩ := alignToByteBoundary_spec h
    exact ⟨_, rfl, hwhole, hcontent⟩

theorem Op.applyBitwise_spec (op : Op) (h : s.Whole) :
    (op.applyBitwise s).Whole ∧ (op.applyBitwise s).content = op.packed s.content := by
  have hpositive : ∀ n, s.nextByte ≠ none → 0 < s.bitOffset ∨ 0 < n :=
    fun _ hsome => .inl (h.positive hsome)
  cases op with
  | writeBits bits count => exact writeBitwise_spec bits count 0 h.holds (hpositive count)
  | writeBit bit =>
    obtain ⟨hwhole, hcontent⟩ :=
      writeBitwise_spec ((BitVec.ofBool bit).setWidth 32) 1 0 h.holds (hpositive 1)
    refine ⟨hwhole, hcontent.trans ?_⟩
    cases bit <;> rfl
  | alignToByteBoundary =>
    obtain ⟨hwhole, -, hcontent⟩ := alignToByteBoundary_spec h
    exact ⟨hwhole, hcontent⟩

/-- The least-significant-bit-first packing of a sequence of operations. -/
def packing (ops : List Op) : List Bool := ops.foldl Op.packed []

/-- The bits before the first operation are whole bytes, so they do not move the
alignments. -/
theorem foldl_packed_append {pre : List Bool} (hpre : pre.length % 8 = 0) (ops : List Op)
    (l : List Bool) : ops.foldl Op.packed (pre ++ l) = pre ++ ops.foldl Op.packed l := by
  induction ops generalizing l with
  | nil => rfl
  | cons op ops ih =>
    have hop : Op.packed (pre ++ l) op = pre ++ Op.packed l op := by
      cases op with
      | writeBits bits count => exact List.append_assoc _ _ _
      | writeBit bit => exact List.append_assoc _ _ _
      | alignToByteBoundary =>
        have hlength : (pre ++ l).length % 8 = l.length % 8 := by
          rw [length_append]
          omega
        simp only [Op.packed, padded, hlength, List.append_assoc]
    simp only [foldl_cons, hop, ih]

/-- Every sequence of operations delivers the least-significant-bit-first packing of its
bits: the bytes in the stream and the byte that is held, whose other bits are zero.  The
fast paths make no difference. -/
theorem packs (stream : OutputStream) (hstream : stream.anyError = false) (ops : List Op)
    (hops : ∀ op ∈ ops, op.Valid) : ∃ s, ops.foldlM (fun s op => op.apply s) (new stream) = some s ∧
      s.content = unpack stream.bytes ++ packing ops ∧
      (∀ byte, s.nextByte = some byte → 0 < s.bitOffset ∧ s.bitOffset < 8 ∧
        ∀ i, s.bitOffset ≤ i → byte.getLsbD i = false) ∧
      (ops.foldl (fun s op => op.applyBitwise s) (new stream)).stream.bytes = s.stream.bytes ∧
      (ops.foldl (fun s op => op.applyBitwise s) (new stream)).nextByte = s.nextByte := by
  have hrun : ∀ (ops : List Op) (s t : OutputBitStream), (∀ op ∈ ops, op.Valid) →
      s.Whole → t.Whole → s.content = t.content →
      ∃ s', ops.foldlM (fun s op => op.apply s) s = some s' ∧ s'.Whole ∧
        s'.content = ops.foldl Op.packed s.content ∧
        (ops.foldl (fun s op => op.applyBitwise s) t).Whole ∧
        (ops.foldl (fun s op => op.applyBitwise s) t).content = s'.content := by
    intro ops
    induction ops with
    | nil => exact fun s t _ hs ht hst => ⟨s, rfl, hs, rfl, ht, hst.symm⟩
    | cons op ops ih =>
      intro s t hops hs ht hst
      obtain ⟨s₁, hs₁, hwhole, hcontent⟩ := Op.apply_spec (hops op mem_cons_self) hs
      obtain ⟨hwhole', hcontent'⟩ := op.applyBitwise_spec ht
      obtain ⟨s', hs', hrest⟩ := ih s₁ (op.applyBitwise t)
        (fun o ho => hops o (mem_cons_of_mem _ ho)) hwhole hwhole'
        (by rw [hcontent, hcontent', hst])
      refine ⟨s', by rw [foldlM_cons, hs₁]; exact hs', hrest.1, ?_, hrest.2.2⟩
      rw [hrest.2.1, hcontent, foldl_cons]
  have hnew := new_whole hstream
  obtain ⟨s, hs, hwhole, hcontent, hwhole', hcontent'⟩ := hrun ops _ _ hops hnew hnew rfl
  obtain ⟨hbytes, hbyte, -⟩ := eq_of_content_eq hwhole' hwhole hcontent'
  refine ⟨s, hs, ?_, fun byte hsome => ?_, hbytes, hbyte⟩
  · have hstart : (new stream).content = unpack stream.bytes ++ [] := rfl
    rw [hcontent, hstart, foldl_packed_append (by rw [length_unpack]; omega), packing]
  · exact ⟨hwhole.positive (by simp [hsome]), hwhole.holds.offset (by simp [hsome]),
      hwhole.holds.zeros byte hsome⟩

theorem packs_sample : packing [.writeBits 5 3, .alignToByteBoundary, .writeBit true] =
      [true, false, true, false, false, false, false, false, true] ∧
    ∃ s, [Op.writeBits 5 3, .alignToByteBoundary, .writeBit true].foldlM
        (fun s op => op.apply s) (new ⟨[0xAB], false⟩) = some s ∧
      s.content = unpack [0xAB] ++ packing [.writeBits 5 3, .alignToByteBoundary, .writeBit true] := by
  obtain ⟨s, hs, hcontent, -⟩ := packs ⟨[0xAB], false⟩ rfl
    [.writeBits 5 3, .alignToByteBoundary, .writeBit true] (by decide)
  exact ⟨by decide, s, hs, hcontent⟩

end OutputBitStream

end Literate.AK
